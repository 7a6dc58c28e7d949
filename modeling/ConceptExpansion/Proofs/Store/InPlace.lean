/-
# Admission in place

`Store.insert` yields the next store only together with its answer. An admission that fails
yields none, so there is nothing that it could leave behind. A store that is written in
place has no such safeguard, as what has been written before an error stays written. Here
admission is stated as a computation of this kind. It makes its checks one after the
other, goes through payloads attribute by attribute, and writes the index of keys, the
index of kinds and the list of entries one by one.

Every check comes before the first write. So the computation answers as `insert` does and
leaves the store that `insert` yields, and after an error the store as it was. This holds
of every store, well-formed or not, and carries over to any sequence of admissions.
-/

import ConceptExpansion.Proofs.Store.Permanence
import ConceptExpansion.Run.Failure

namespace ConceptExpansion

/-- A computation that writes to a store in place. What it has written stays, also if it
fails later on. -/
abbrev StoreM (α : Type) : Type :=
  ExceptT StoreError (StateM Store) α

namespace StoreM

variable {α β : Type} {store : Store}

/-- What the computation answers, with the store that it leaves. -/
def perform (computation : StoreM α) (store : Store) : Except StoreError α × Store :=
  computation.run.run store

theorem perform_get_bind (next : Store → StoreM β) (store : Store) :
    perform (get >>= next) store = perform (next store) store := rfl

/-- A check, which reads the store and does not write to it. -/
def check (verdict : Store → Except StoreError α) : StoreM α := do
  MonadExcept.ofExcept (verdict (← get))

variable {verdict : Store → Except StoreError α} {next : α → StoreM β}

theorem perform_check_of_ok {a : α} (h : verdict store = .ok a) :
    perform (check verdict >>= next) store = perform (next a) store := by
  show perform (MonadExcept.ofExcept (verdict store) >>= next) store = _
  rw [h]
  rfl

theorem perform_check_of_error {error : StoreError} (h : verdict store = .error error) :
    perform (check verdict >>= next) store = (.error error, store) := by
  show perform (MonadExcept.ofExcept (verdict store) >>= next) store = _
  rw [h]
  rfl

end StoreM

/-! ## Payloads -/

section Attempts

variable {ε α σ : Type} {l : List σ} {p : σ → Bool} {f : α → σ → α} {g : α → σ → Except ε α}

/-- A fold of attempts is a plain fold if there is no item at which they fail. -/
theorem foldlM_of_find?_eq_none (h : l.find? p = none)
    (hgood : ∀ a s, p s = false → g a s = .ok (f a s)) (a : α) :
    l.foldlM g a = .ok (l.foldl f a) := by
  induction l generalizing a with
  | nil => rfl
  | cons s l ih =>
      obtain ⟨hs, hrest⟩ := List.forall_mem_cons.1 (List.find?_eq_none.1 h)
      rw [List.foldlM_cons, bind_of_eq_ok (hgood a s (Bool.eq_false_iff.2 hs)), List.foldl_cons]
      exact ih (List.find?_eq_none.2 hrest) _

/-- A fold of attempts fails at the first item at which they do. -/
theorem foldlM_of_find?_eq_some {s : σ} {error : ε} (h : l.find? p = some s)
    (hgood : ∀ a s, p s = false → g a s = .ok (f a s)) (hbad : ∀ a, g a s = .error error)
    (a : α) : l.foldlM g a = .error error := by
  induction l generalizing a with
  | nil => cases h
  | cons first l ih =>
      rw [List.find?_cons] at h
      cases hfirst : p first with
      | true =>
          rw [hfirst, Option.some.injEq] at h
          rw [List.foldlM_cons, h, bind_of_eq_error (hbad a)]
      | false =>
          rw [hfirst] at h
          rw [List.foldlM_cons, bind_of_eq_ok (hgood a first hfirst)]
          exact ih h _

end Attempts

namespace KindDef

variable {kind : KindDef} {existing incoming : Attributes}

/-- Adds the attribute of this name to the payload `merged` if it is cumulative, and
compares it in both payloads otherwise. -/
def mergeAttribute (kind : KindDef) (existing incoming merged : Attributes) (name : String) :
    Except String Attributes :=
  if kind.isCumulative name then
    .ok (merged.insert name
      (((existing.get? name).getD .null).union ((incoming.get? name).getD .null)))
  else if existing.get? name = incoming.get? name then .ok merged
  else .error name

/-- Goes through the attributes of either payload as far as the payloads agree. The result
is the merged payload, if it is another one than the first. -/
def mergeAttributes (kind : KindDef) (existing incoming : Attributes) :
    Except String (Option Attributes) := do
  let merged ← (attributesOfBoth existing incoming).foldlM
    (kind.mergeAttribute existing incoming) existing
  return if merged = existing then none else some merged

theorem mergeAttribute_of_agree (existing incoming merged : Attributes) (name : String)
    (h : (!kind.isCumulative name && existing.get? name != incoming.get? name) = false) :
    kind.mergeAttribute existing incoming merged name =
      .ok (if kind.isCumulative name then merged.insert name
        (((existing.get? name).getD .null).union ((incoming.get? name).getD .null))
      else merged) := by
  cases hname : kind.isCumulative name with
  | true => simp [mergeAttribute, hname]
  | false =>
      have hsame : existing.get? name = incoming.get? name := by simpa [hname] using h
      simp [mergeAttribute, hname, hsame]

theorem mergeAttributes_of_agree (h : kind.disagreement? existing incoming = none) :
    kind.mergeAttributes existing incoming =
      .ok (if kind.merge existing incoming = existing then none
        else some (kind.merge existing incoming)) :=
  bind_of_eq_ok (foldlM_of_find?_eq_none h (mergeAttribute_of_agree existing incoming) existing) _

theorem mergeAttributes_of_disagree {name : String}
    (h : kind.disagreement? existing incoming = some name) :
    kind.mergeAttributes existing incoming = .error name := by
  have hname : kind.isCumulative name = false ∧ existing.get? name ≠ incoming.get? name := by
    simpa using List.find?_some h
  have hbad : ∀ merged, kind.mergeAttribute existing incoming merged name = .error name :=
    fun merged => by simp [mergeAttribute, hname.1, hname.2]
  exact bind_of_eq_error
    (foldlM_of_find?_eq_some h (mergeAttribute_of_agree existing incoming) hbad existing) _

/-- Writes the attribute of this name as an ascending list, if there is one. -/
def normalizeAttribute (payload : Attributes) (name : String) : Attributes :=
  match payload.get? name with
  | some value => (payload.erase name).insert name (Value.null.union value)
  | none => payload

/-- Writes the cumulative attributes as ascending lists, one after the other. -/
def normalizeAttributes (kind : KindDef) (payload : Attributes) : Attributes :=
  kind.cumulative.names.foldl normalizeAttribute payload

theorem get?_normalizeAttribute (payload : Attributes) (name other : String) :
    (normalizeAttribute payload name).get? other =
      if other = name then (payload.get? name).map Value.null.union else payload.get? other := by
  rw [normalizeAttribute]
  cases hvalue : payload.get? name with
  | none =>
      by_cases hother : other = name
      · rw [if_pos hother, hother, hvalue, Option.map_none]
      · rw [if_neg hother]
  | some value =>
      rw [NameMap.get?_insert, NameMap.get?_erase]
      by_cases hother : other = name
      · rw [if_pos hother, if_pos hother, Option.map_some]
      · rw [if_neg hother, if_neg hother, if_neg hother]

theorem get?_foldl_normalizeAttribute {names : List String} (h : names.Nodup)
    (payload : Attributes) (name : String) :
    (names.foldl normalizeAttribute payload).get? name =
      if name ∈ names then (payload.get? name).map Value.null.union else payload.get? name := by
  induction names generalizing payload with
  | nil => rfl
  | cons first names ih =>
      obtain ⟨hfirst, hnames⟩ := List.nodup_cons.1 h
      rw [List.foldl_cons, ih hnames, get?_normalizeAttribute]
      by_cases hname : name = first
      · rw [hname, if_neg hfirst, if_pos rfl, if_pos List.mem_cons_self]
      · rw [if_neg hname]
        exact if_congr (by rw [List.mem_cons, or_iff_right hname]) rfl rfl

/-- No cumulative attribute is written twice. -/
theorem normalizeAttributes_eq (kind : KindDef) (payload : Attributes) :
    kind.normalizeAttributes payload = kind.normalize payload :=
  NameMap.ext_get? fun name => by
    have hmem : name ∈ kind.cumulative.names ↔ kind.isCumulative name = true :=
      kind.cumulative.mem_names_iff
    rw [normalizeAttributes, get?_foldl_normalizeAttribute kind.cumulative.nodup_names, normalize,
      NameMap.get?_mapValues]
    cases hname : kind.isCumulative name with
    | true => rw [if_pos (hmem.2 hname)]; rfl
    | false => rw [if_neg (mt hmem.1 (Bool.eq_false_iff.1 hname))]; simp

end KindDef

/-! ## Admission -/

namespace Store

variable {store next : Store} {concept : Concept} {origin : Origin}

/-- Enters a key into the index of keys. -/
def writeKey (key : Key) (id : ConceptId) : StoreM PUnit :=
  modify fun store => { store with byKey := store.byKey.insert key id }

/-- Enters a key into the index of its kind. -/
def writeKindKey (key : Key) (id : ConceptId) : StoreM PUnit :=
  modify fun store => { store with
    byKind := store.byKind.alter key.kind fun index? => some ((index?.getD ∅).insert key id) }

/-- Puts an entry at the end. -/
def writeEntry (entry : Entry) : StoreM PUnit :=
  modify fun store => { store with entries := store.entries.push entry }

/-- Puts another payload into a stored concept. -/
def writePayload (id : ConceptId) (payload : Attributes) : StoreM PUnit :=
  modify fun store => store.setPayload id payload

/-- The identifier for the next entry. -/
def nextId (key : Key) (store : Store) : Except StoreError ConceptId :=
  match ConceptId.ofIndex? store.size with
  | some id => .ok id
  | none => .error (.capacity key capacity)

/-- Stores a concept whose key is new. -/
def insertNewInPlace (kind : KindDef) (key : Key) (concept : Concept) (origin : Origin) :
    StoreM Admission := do
  let id ← StoreM.check (nextId key)
  let concept := concept.setPayload (kind.normalizeAttributes concept.payload)
  writeKey key id
  writeKindKey key id
  writeEntry { id, key, concept, origin }
  return .admitted id

/-- Describes the stored concept `entry` once more. -/
def reinsertInPlace (kind : KindDef) (entry : Entry) (concept : Concept) (origin : Origin) :
    StoreM Admission :=
  match kind.mergeAttributes entry.concept.payload concept.payload with
  | .ok none => return .alreadyPresent entry.id
  | .ok (some merged) => do
    writePayload entry.id merged
    return .merged entry.id
  | .error attributeName =>
    throw (.conflict
      { key := entry.key, attributeName
        existing := entry.concept, existingOrigin := entry.origin
        incoming := concept, incomingOrigin := origin })

/-- Admits a concept. -/
def insertInPlace (concept : Concept) (origin : Origin) : StoreM Admission := do
  let kind ← StoreM.check fun store => (store.schema.validate concept).mapError .invalid
  let key ← StoreM.check fun store => store.resolve concept
  match (← get).find? key with
  | some entry => reinsertInPlace kind entry concept origin
  | none => insertNewInPlace kind key concept origin

/-- Admits one concept after the other, whatever becomes of those before it. -/
def insertAllInPlace (attempts : List (Concept × Origin)) :
    StateM Store (List (Except StoreError Admission)) :=
  attempts.mapM fun (concept, origin) => (insertInPlace concept origin).run

/-- What an attempt answers, with the store that is there afterwards. -/
def afterwards (store : Store) :
    Except StoreError (Admission × Store) → Except StoreError Admission × Store
  | .ok (admission, next) => (.ok admission, next)
  | .error error => (.error error, store)

theorem perform_insertNewInPlace (store : Store) (kind : KindDef) (concept : Concept)
    (origin : Origin) :
    (insertNewInPlace kind concept.key concept origin).perform store =
      store.afterwards (store.insertNew kind concept origin) := by
  rw [insertNewInPlace, insertNew]
  cases hid : ConceptId.ofIndex? store.size with
  | none =>
      have hfull : nextId concept.key store = .error (.capacity concept.key capacity) := by
        rw [nextId, hid]
      exact StoreM.perform_check_of_error hfull
  | some id =>
      have hnext : nextId concept.key store = .ok id := by
        rw [nextId, hid]
      rw [StoreM.perform_check_of_ok hnext, kind.normalizeAttributes_eq]
      -- The three writes together are one `push`.
      rfl

theorem perform_reinsertInPlace (store : Store) (kind : KindDef) (entry : Entry)
    (concept : Concept) (origin : Origin) :
    (reinsertInPlace kind entry concept origin).perform store =
      store.afterwards (store.reinsert kind entry concept origin) := by
  rw [reinsertInPlace, reinsert]
  cases hagree : kind.disagreement? entry.concept.payload concept.payload with
  | some attributeName =>
      rw [KindDef.mergeAttributes_of_disagree hagree]
      rfl
  | none =>
      rw [KindDef.mergeAttributes_of_agree hagree]
      by_cases hsame : kind.merge entry.concept.payload concept.payload = entry.concept.payload
      · simp only [if_pos hsame]
        rfl
      · simp only [if_neg hsame]
        rfl

/-- **Admission in place** answers as `insert` does. It leaves the store that `insert`
yields, and the store as it was if there is an error. -/
theorem perform_insertInPlace (store : Store) (concept : Concept) (origin : Origin) :
    (insertInPlace concept origin).perform store =
      store.afterwards (store.insert concept origin) := by
  rw [insertInPlace, insert]
  cases hvalid : store.schema.validate concept with
  | error cause =>
      have herror : (store.schema.validate concept).mapError .invalid =
          .error (StoreError.invalid cause) := by
        rw [hvalid]
        rfl
      exact StoreM.perform_check_of_error herror
  | ok kind =>
      have hkind : (store.schema.validate concept).mapError StoreError.invalid = .ok kind := by
        rw [hvalid]
        rfl
      rw [StoreM.perform_check_of_ok hkind]
      cases hmissing : store.missingTarget? concept with
      | some target =>
          have herror : store.resolve concept = .error (.unresolved concept.key target) := by
            rw [resolve, hmissing]
          exact StoreM.perform_check_of_error herror
      | none =>
          have hkey : store.resolve concept = .ok concept.key := resolve_eq_ok_iff.2 ⟨hmissing, rfl⟩
          rw [StoreM.perform_check_of_ok hkey, StoreM.perform_get_bind]
          cases hfind : store.find? concept.key with
          | some entry => exact store.perform_reinsertInPlace kind entry concept origin
          | none => exact store.perform_insertNewInPlace kind concept origin

/-! ## What follows -/

/-- An error, or the answer that nothing was added, means that nothing has been written. -/
theorem eq_of_perform_insertInPlace {answer : Except StoreError Admission}
    (h : (insertInPlace concept origin).perform store = (answer, next))
    (hanswer : ∀ admission, answer = .ok admission → admission.changed = false) :
    next = store := by
  rw [perform_insertInPlace] at h
  cases hinsert : store.insert concept origin with
  | error error =>
      rw [hinsert] at h
      cases h
      rfl
  | ok result =>
      obtain ⟨admission, later⟩ := result
      rw [hinsert] at h
      cases h
      have hunchanged := hanswer admission rfl
      obtain ⟨kind, -, -, hinsertion⟩ := insert_eq_ok_iff.1 hinsert
      cases hinsertion with
      | admitted | merged => cases hunchanged
      | alreadyPresent => rfl

/-- Admission in place has one of the effects of an offer. -/
theorem WellFormed.effect_insertInPlace (hstore : store.WellFormed) (concept : Concept)
    (origin : Origin) :
    store.Effect concept origin ((insertInPlace concept origin).perform store).1
      ((insertInPlace concept origin).perform store).2 := by
  rw [perform_insertInPlace]
  cases hinsert : store.insert concept origin with
  | error error => exact .refused error
  | ok result => exact hstore.effect_of_insert hinsert

theorem run_insertAllInPlace_cons (store : Store) (concept : Concept) (origin : Origin)
    (rest : List (Concept × Origin)) :
    (insertAllInPlace ((concept, origin) :: rest)).run store =
      (((insertInPlace concept origin).perform store).1 ::
          ((insertAllInPlace rest).run ((insertInPlace concept origin).perform store).2).1,
        ((insertAllInPlace rest).run ((insertInPlace concept origin).perform store).2).2) := by
  rw [insertAllInPlace, List.mapM_cons]
  rfl

/-- Admissions in place answer as `insertAll` does and leave the same store, whichever of
them fail. -/
theorem run_insertAllInPlace (store : Store) (attempts : List (Concept × Origin)) :
    (insertAllInPlace attempts).run store = store.insertAll attempts := by
  induction attempts generalizing store with
  | nil => rfl
  | cons attempt rest ih =>
      rw [run_insertAllInPlace_cons, perform_insertInPlace]
      cases hinsert : store.insert attempt.1 attempt.2 with
      | error error => rw [insertAll_cons_of_error hinsert, ← ih]; rfl
      | ok result => rw [insertAll_cons_of_ok hinsert, ← ih]; rfl

end Store

end ConceptExpansion
