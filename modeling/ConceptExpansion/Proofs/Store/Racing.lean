/-
# Producers that race

Several producers offer concepts to one shared store, each its own in its own order, and
nothing is known of who is served when. Of the offers of one key exactly one stores it,
and every other that succeeds is told the identifier that it was given.

If the producers all offer the same concepts, little depends on the race. Whoever is
ahead is the first to offer whatever comes next, so the concepts are offered for the
first time in the order of the list, and as long as none of them has to wait for its key
references, the store has a verdict on each of them for good: what was taken in is
present from then on, and what was refused is refused again, on the same grounds. All
other offers are repetitions, which change nothing.
-/

import ConceptExpansion.Proofs.Store.Origins
import ConceptExpansion.Proofs.Store.Permanence
import ConceptExpansion.Proofs.Store.Refusals
import ConceptExpansion.Proofs.Store.Reordering
import ConceptExpansion.Store.Sharing

namespace ConceptExpansion

/-! ## Interleaving -/

/-- The second list is made of the lists in the first one, each of them read from its
front, by turns in whatever order. -/
inductive Interleaves {α : Type} : List (List α) → List α → Prop
  /-- Nothing is left to be read. -/
  | done {lists : List (List α)} (h : ∀ list ∈ lists, list = []) : Interleaves lists []
  /-- One list has a turn. -/
  | turn (before after : List (List α)) {x : α} {list rest : List α}
      (h : Interleaves (before ++ list :: after) rest) :
      Interleaves (before ++ (x :: list) :: after) (x :: rest)

namespace Interleaves

variable {α β : Type} {lists : List (List α)} {list : List α}

theorem nil_cons (h : Interleaves lists list) : Interleaves ([] :: lists) list := by
  induction h with
  | done h => exact .done (by simpa using h)
  | turn before after _ ih => exact .turn ([] :: before) after ih

/-- To read one list after the other is one way to take turns. -/
theorem flatten (lists : List (List α)) : Interleaves lists lists.flatten := by
  induction lists with
  | nil => exact .done (by simp)
  | cons list lists ih =>
      rw [List.flatten_cons]
      induction list with
      | nil => exact ih.nil_cons
      | cons x list ihList => exact .turn [] lists ihList

theorem map (h : Interleaves lists list) (f : α → β) :
    Interleaves (lists.map (List.map f)) (list.map f) := by
  induction h with
  | done h =>
      refine .done fun mapped hmapped => ?_
      obtain ⟨list, hlist, rfl⟩ := List.mem_map.1 hmapped
      rw [h list hlist, List.map_nil]
  | turn before after _ ih =>
      simp only [List.map_append, List.map_cons] at ih ⊢
      exact .turn _ _ ih

/-- Whatever has a turn comes from one of the lists. -/
theorem exists_mem (h : Interleaves lists list) {x : α} (hx : x ∈ list) :
    ∃ source ∈ lists, x ∈ source := by
  induction h with
  | done => cases hx
  | @turn before after y list rest _ ih =>
      rcases List.mem_cons.1 hx with rfl | hx
      · exact ⟨x :: list, by simp, by simp⟩
      · obtain ⟨source, hsource, hx'⟩ := ih hx
        rcases List.mem_append.1 hsource with hsource | hsource
        · exact ⟨source, by simp [hsource], hx'⟩
        · rcases List.mem_cons.1 hsource with rfl | hsource
          · exact ⟨y :: source, by simp, by simp [hx']⟩
          · exact ⟨source, by simp [hsource], hx'⟩

end Interleaves

/-! ## Verdicts -/

/-- What a refusal rests on, with nothing said of the stored description beyond its key
and of who gave either description. -/
inductive Grounds where
  /-- The concept does not fit the schema. -/
  | invalid (cause : SchemaError)
  /-- A key field of `referrer` refers to `target`, which is not stored. -/
  | unresolved (referrer target : Key)
  /-- The concept and the stored description disagree on an attribute. -/
  | conflict (key : Key) (attributeName : String) (incoming : Concept)
  /-- A writer gave up half way. -/
  | poisoned
  /-- The store is shared by this many handles. -/
  | stillShared (handles : Nat)
  /-- The store is full. -/
  | capacity (key : Key) (limit : Nat)
  deriving DecidableEq

/-- The grounds of a refusal. -/
def StoreError.grounds : StoreError → Grounds
  | invalid cause => .invalid cause
  | unresolved referrer target => .unresolved referrer target
  | conflict c => .conflict c.key c.attributeName c.incoming
  | poisoned => .poisoned
  | stillShared handles => .stillShared handles
  | capacity key limit => .capacity key limit

@[simp]
theorem StoreError.grounds_mapOrigins (f : Origin → Origin) (error : StoreError) :
    (error.mapOrigins f).grounds = error.grounds := by
  cases error <;> rfl

/-- An answer without the provenance that a conflict quotes. -/
def verdict (answer : Except StoreError Admission) : Except Grounds Admission :=
  answer.mapError StoreError.grounds

@[simp]
theorem verdict_mapOrigins (f : Origin → Origin) (answer : Except StoreError Admission) :
    verdict (answer.mapError (StoreError.mapOrigins f)) = verdict answer := by
  cases answer with
  | error error => exact congrArg Except.error (error.grounds_mapOrigins f)
  | ok admission => rfl

/-- The admissions among some verdicts that changed the store, in their order. -/
def changes (verdicts : List (Except Grounds Admission)) : List Admission :=
  verdicts.filterMap fun verdict => verdict.toOption.filter Admission.changed

theorem changes_cons (verdict : Except Grounds Admission)
    (verdicts : List (Except Grounds Admission)) :
    changes (verdict :: verdicts) = changes [verdict] ++ changes verdicts :=
  List.filterMap_append (l := [verdict])

namespace Store

variable {store next : Store} {concept : Concept} {origin : Origin} {admission : Admission}

/-- The grounds on which a store refuses a concept for good. -/
inductive Rejects (store : Store) (concept : Concept) : Grounds → Prop
  | invalid {cause : SchemaError} (hvalid : store.schema.validate concept = .error cause) :
      Rejects store concept (.invalid cause)
  | conflict {kind : KindDef} {entry : Entry} {name : String}
      (hvalid : store.schema.validate concept = .ok kind)
      (hfind : store.find? concept.key = some entry)
      (hname : kind.disagreement? entry.concept.payload concept.payload = some name) :
      Rejects store concept (.conflict concept.key name concept)
  | full {kind : KindDef} (hvalid : store.schema.validate concept = .ok kind)
      (hmissing : store.missingTarget? concept = none)
      (hfind : store.find? concept.key = none) (hsize : store.size = capacity) :
      Rejects store concept (.capacity concept.key capacity)

/-- A refusal that is not for want of a key reference is for good. -/
theorem WellFormed.rejects_of_insert (hstore : store.WellFormed) {error : StoreError}
    (h : store.insert concept origin = .error error)
    (hresolved : ∀ referrer target, error ≠ .unresolved referrer target) :
    store.Rejects concept error.grounds := by
  cases refusal_of_insert h with
  | invalid hvalid => exact .invalid hvalid
  | unresolved => exact absurd rfl (hresolved _ _)
  | @conflict kind entry name hvalid _ hfind hname =>
      have hkey : entry.key = concept.key := (hstore.find?_eq_some_iff.1 hfind).2
      show store.Rejects concept (.conflict entry.key name concept)
      rw [hkey]
      exact .conflict hvalid hfind hname
  | full hvalid hmissing hfind hsize =>
      exact .full hvalid hmissing hfind (Nat.le_antisymm hstore.size_le_capacity hsize)

/-- What is rejected is refused on these grounds. -/
theorem Rejects.insert_eq {grounds : Grounds} (h : store.Rejects concept grounds)
    (hstore : store.WellFormed) (origin : Origin) :
    ∃ error, store.insert concept origin = .error error ∧ error.grounds = grounds := by
  cases h with
  | @invalid cause hvalid => exact ⟨.invalid cause, by simp only [insert, hvalid], rfl⟩
  | @conflict kind entry name hvalid hfind hname =>
      have hmissing := hstore.missingTarget?_of_find? hfind
      have hkey : entry.key = concept.key := (hstore.find?_eq_some_iff.1 hfind).2
      refine ⟨.conflict ⟨entry.key, name, entry.concept, entry.origin, concept, origin⟩,
        by simp only [insert, hvalid, hmissing, hfind, reinsert, hname], ?_⟩
      exact congrArg (Grounds.conflict · name concept) hkey
  | full hvalid hmissing hfind hsize =>
      have hfull : ConceptId.ofIndex? store.size = none := ofIndex?_eq_none_iff.2 hsize.ge
      exact ⟨.capacity concept.key capacity,
        by simp only [insert, hvalid, hmissing, hfind, insertNew, hfull], rfl⟩

end Store

/-! ## What is settled once stays settled -/

/-- Names that ascend are found in the order of the names, whichever other names stand
between them. -/
theorem find?_eq_of_ascending {names names' : List String} {p : String → Bool}
    (hnames : names.Pairwise (· < ·)) (hnames' : names'.Pairwise (· < ·))
    (h : ∀ name, p name = true → (name ∈ names ↔ name ∈ names')) :
    names.find? p = names'.find? p := by
  have hperm : (names.filter p).Perm (names'.filter p) := by
    have hnodup : ∀ {list : List String}, list.Pairwise (· < ·) → (list.filter p).Nodup :=
      fun hlist => (hlist.imp fun {a b} hlt => (ne_of_lt hlt : a ≠ b)).filter p
    rw [List.perm_ext_iff_of_nodup (hnodup hnames) (hnodup hnames')]
    intro name
    rw [List.mem_filter, List.mem_filter]
    exact and_congr_left (h name)
  have hfilter : names.filter p = names'.filter p :=
    hperm.eq_of_pairwise (fun a b _ _ hab hba => absurd hba (lt_asymm hab))
      (hnames.filter p) (hnames'.filter p)
  rw [← List.head?_filter, ← List.head?_filter, hfilter]

/-- The attribute on which a description disagrees does not depend on the cumulative
attributes of the stored one. -/
theorem KindDef.disagreement?_congr (kind : KindDef) {existing existing' : Attributes}
    (incoming : Attributes)
    (h : ∀ name, kind.isCumulative name = false → existing.get? name = existing'.get? name) :
    kind.disagreement? existing incoming = kind.disagreement? existing' incoming := by
  have hsame : (fun name => !kind.isCumulative name && existing.get? name != incoming.get? name) =
      fun name => !kind.isCumulative name && existing'.get? name != incoming.get? name := by
    funext name
    cases hname : kind.isCumulative name with
    | true => rfl
    | false => rw [h name hname]
  unfold disagreement?
  rw [hsame]
  refine find?_eq_of_ascending (NameMap.ascending_names _) (NameMap.ascending_names _)
    fun name hname => ?_
  have hplain : kind.isCumulative name = false := by
    simp only [Bool.and_eq_true, Bool.not_eq_true'] at hname
    exact hname.1
  rw [mem_attributesOfBoth, mem_attributesOfBoth, h name hplain]

namespace Store

variable {store next : Store} {concept other : Concept} {origin : Origin}
  {admission : Admission}

/-- A full store stays full, and takes in no new key. -/
theorem find?_of_full (hstore : store.WellFormed) (hsize : store.size = capacity)
    (hinsert : store.insert other origin = .ok (admission, next)) {key : Key}
    (hfind : store.find? key = none) : next.size = capacity ∧ next.find? key = none := by
  obtain ⟨kind, -, -, hinsertion⟩ := insert_eq_ok_iff.1 hinsert
  have hnext := hstore.insert hinsert
  cases hinsertion with
  | admitted hid =>
      rw [ofIndex?_eq_none_iff.2 hsize.ge] at hid
      cases hid
  | alreadyPresent => exact ⟨hsize, hfind⟩
  | merged =>
      rw [hnext.find?_eq_none_iff]
      exact ⟨Array.size_modify.trans hsize, hstore.find?_eq_none_iff.1 hfind⟩

theorem Rejects.insert {grounds : Grounds} (h : store.Rejects concept grounds)
    (hstore : store.WellFormed) (hinsert : store.insert other origin = .ok (admission, next)) :
    next.Rejects concept grounds := by
  have hnext := hstore.insert hinsert
  have hgrows := hstore.grows_insert hinsert
  have hschema : next.schema.validate concept = store.schema.validate concept :=
    congrArg (·.validate concept) hgrows.schema
  cases h with
  | invalid hvalid => exact .invalid (hschema.trans hvalid)
  | @conflict kind entry name hvalid hfind hname =>
      obtain ⟨later, hlater, hwithin⟩ := hgrows.find? hstore hnext hfind
      refine .conflict (hschema.trans hvalid) hlater (.trans ?_ hname)
      refine (kind.disagreement?_congr _ fun name hplain => hwithin.plain name ?_).symm
      exact (Schema.isCumulative_of_validate (hstore.validate_entry hvalid hfind) name).trans
        hplain
  | full hvalid hmissing hfind hsize =>
      obtain ⟨hsize', hfind'⟩ := find?_of_full hstore hsize hinsert hfind
      exact .full (hschema.trans hvalid) (hgrows.missingTarget? hmissing) hfind' hsize'

/-- The store has a verdict on the concept for good: it says all that the concept says, or
rejects it. -/
inductive Decided (store : Store) (concept : Concept) : Except Grounds Admission → Prop
  | present {id : ConceptId} (h : store.Represents concept)
      (hid : store.idOf? concept.key = some id) :
      Decided store concept (.ok (.alreadyPresent id))
  | rejected {grounds : Grounds} (h : store.Rejects concept grounds) :
      Decided store concept (.error grounds)

theorem WellFormed.decided_of_insert (hstore : store.WellFormed)
    (hinsert : store.insert concept origin = .ok (admission, next)) :
    next.Decided concept (.ok (.alreadyPresent admission.id)) :=
  .present (hstore.represents_of_insert hinsert) (hstore.idOf?_of_insert hinsert)

namespace Decided

variable {settled : Except Grounds Admission}

/-- What is decided is answered so, whatever the origin, and changes nothing. -/
theorem insertAll_cons (h : store.Decided concept settled) (hstore : store.WellFormed)
    (origin : Origin) (rest : List (Concept × Origin)) :
    ∃ answer, verdict answer = settled ∧ store.insertAll ((concept, origin) :: rest) =
      (answer :: (store.insertAll rest).1, (store.insertAll rest).2) := by
  cases h with
  | @present id hrepresents hid =>
      obtain ⟨id', hinsert⟩ := hrepresents.insert_eq hstore origin
      obtain rfl : id' = id :=
        Option.some.inj ((hstore.idOf?_of_insert hinsert).symm.trans hid)
      exact ⟨_, rfl, insertAll_cons_of_ok hinsert rest⟩
  | rejected hrejects =>
      obtain ⟨error, hinsert, hgrounds⟩ := hrejects.insert_eq hstore origin
      exact ⟨.error error, congrArg Except.error hgrounds, insertAll_cons_of_error hinsert rest⟩

theorem insert (h : store.Decided concept settled) (hstore : store.WellFormed)
    (hinsert : store.insert other origin = .ok (admission, next)) :
    next.Decided concept settled := by
  have hgrows := hstore.grows_insert hinsert
  cases h with
  | present hrepresents hid =>
      exact .present (hrepresents.grows hgrows hstore (hstore.insert hinsert)) (hgrows.idOf? hid)
  | rejected hrejects => exact .rejected (hrejects.insert hstore hinsert)

theorem insertAll (h : store.Decided concept settled) (hstore : store.WellFormed)
    (attempts : List (Concept × Origin)) :
    (store.insertAll attempts).2.Decided concept settled := by
  have hlast : (store.insertAll attempts).2.WellFormed ∧
      (store.insertAll attempts).2.Decided concept settled := by
    apply insertAll_invariant (P := fun later => later.WellFormed ∧ later.Decided concept settled)
    · rintro later next other origin admission ⟨hlater, hdecided⟩ hinsert
      exact ⟨hlater.insert hinsert, hdecided.insert hlater hinsert⟩
    · exact ⟨hstore, h⟩
  exact hlast.2

/-- A decided concept is never what changes a store. -/
theorem changes_eq_nil (h : store.Decided concept settled) : changes [settled] = [] := by
  cases h <;> rfl

end Decided

/-! ## Verdicts on concepts of whatever origin -/

/-- The store with nothing said of origins. -/
def unattributed (store : Store) : Store :=
  store.mapOrigins fun _ => .seed 0

/-- The verdicts on some concepts that are offered one after the other, and the store in
the end, with nothing said of origins. -/
def hear (store : Store) (concepts : List Concept) : List (Except Grounds Admission) × Store :=
  Prod.map (List.map verdict) id (store.insertAll (concepts.map fun concept => (concept, .seed 0)))

theorem attempts_unattributed (attempts : List (Concept × Origin)) :
    (attempts.map (·.1)).map (fun concept => (concept, Origin.seed 0)) =
      attempts.map (Prod.map id fun _ => .seed 0) :=
  List.map_map ..

/-- The verdicts on what is offered to an empty store depend on the concepts alone. -/
theorem hear_empty (schema : Schema) (attempts : List (Concept × Origin)) :
    (empty schema).hear (attempts.map (·.1)) =
      (((empty schema).insertAll attempts).1.map verdict,
        ((empty schema).insertAll attempts).2.unattributed) := by
  have hanswers := insertAll_mapOrigins (fun _ => .seed 0) (empty schema) attempts
  rw [mapOrigins_empty] at hanswers
  unfold hear
  rw [attempts_unattributed, hanswers]
  simp [Function.comp_def, unattributed]

/-- Whether an offer to an empty store waits for a key reference does not depend on
origins. -/
theorem LeavesNoneUnresolved.unattributed {schema : Schema} {attempts : List (Concept × Origin)}
    (h : (empty schema).LeavesNoneUnresolved attempts) :
    (empty schema).LeavesNoneUnresolved
      ((attempts.map (·.1)).map fun concept => (concept, .seed 0)) := by
  have hanswers := insertAll_mapOrigins (fun _ => .seed 0) (empty schema) attempts
  rw [mapOrigins_empty] at hanswers
  rw [attempts_unattributed]
  intro answer hanswer referrer target herror
  rw [hanswers, herror] at hanswer
  obtain ⟨original, horiginal, hmapped⟩ := List.mem_map.1 hanswer
  rcases original with (_ | ⟨referrer', target'⟩ | _ | _ | _ | _) | admission
  case error.unresolved => exact h _ horiginal referrer' target' rfl
  all_goals cases hmapped

/-- What becomes of a store and its verdicts when the first of some concepts is heard, if
it need not wait for its key references. -/
structure Hearing (store : Store) (concept : Concept) (spoken : Except Grounds Admission)
    (next : Store) : Prop where
  wellFormed : next.WellFormed
  hear_cons : ∀ rest, store.hear (concept :: rest) =
    (spoken :: (next.hear rest).1, (next.hear rest).2)
  decided : ∃ settled, next.Decided concept settled
  keeps : ∀ {other settled}, store.Decided other settled → next.Decided other settled

theorem WellFormed.exists_hearing (hstore : store.WellFormed) {todo : List (Concept × Origin)}
    (hresolved : store.LeavesNoneUnresolved ((concept, .seed 0) :: todo)) :
    ∃ spoken next, store.Hearing concept spoken next ∧ next.LeavesNoneUnresolved todo := by
  cases hinsert : store.insert concept (.seed 0) with
  | ok answer =>
      obtain ⟨admission, next⟩ := answer
      refine ⟨.ok admission, next, ?_, (leavesNoneUnresolved_cons_iff hinsert).1 hresolved⟩
      exact
        { wellFormed := hstore.insert hinsert
          hear_cons := fun rest => by simp [hear, insertAll_cons_of_ok hinsert, verdict]; rfl
          decided := ⟨_, hstore.decided_of_insert hinsert⟩
          keeps := fun hother => hother.insert hstore hinsert }
  | error error =>
      have hanswers := congrArg Prod.fst (insertAll_cons_of_error hinsert todo)
      refine ⟨.error error.grounds, store, ?_, fun answer hanswer => ?_⟩
      · have hrejects := hstore.rejects_of_insert hinsert fun referrer target herror =>
          hresolved (.error error) (by simp [hanswers]) referrer target (by rw [herror])
        exact
          { wellFormed := hstore
            hear_cons := fun rest => by simp [hear, insertAll_cons_of_error hinsert, verdict]; rfl
            decided := ⟨_, .rejected hrejects⟩
            keeps := id }
      · exact hresolved answer (by simp [hanswers, hanswer])

theorem Decided.hear_cons {settled : Except Grounds Admission}
    (h : store.Decided concept settled) (hstore : store.WellFormed) (rest : List Concept) :
    store.hear (concept :: rest) = (settled :: (store.hear rest).1, (store.hear rest).2) := by
  obtain ⟨answer, rfl, hanswer⟩ := h.insertAll_cons hstore (.seed 0)
    (rest.map fun concept => (concept, .seed 0))
  simp [hear, hanswer]

/-- Several producers offer what is left of one list, after repetitions of concepts on
which the store has a verdict already. Whatever turns they take, the store becomes what
it becomes when the rest of the list is offered once; the changes are the same, in the
same order; and the other verdicts are those of the last store on every repetition. -/
theorem hear_interleaved {lists : List (List Concept)} {turns : List Concept}
    (h : Interleaves lists turns) {again : Concept → Except Grounds Admission}
    {store : Store} {known todo : List Concept} (hstore : store.WellFormed)
    (hne : lists ≠ [])
    (hlists : ∀ list ∈ lists, ∃ late, late ⊆ known ∧ list = late ++ todo)
    (hknown : ∀ concept ∈ known, ∃ settled, store.Decided concept settled)
    (hresolved : store.LeavesNoneUnresolved (todo.map fun concept => (concept, .seed 0)))
    (hagain : ∀ concept settled, (store.hear todo).2.Decided concept settled →
      again concept = settled) :
    (store.hear turns).2 = (store.hear todo).2 ∧
      changes (store.hear turns).1 = changes (store.hear todo).1 ∧
      ((store.hear turns).1 ++ todo.map again).Perm
        ((store.hear todo).1 ++ lists.flatten.map again) := by
  induction h generalizing store known todo with
  | @done lists hdone =>
      obtain ⟨list, hlist⟩ := List.exists_mem_of_ne_nil lists hne
      obtain ⟨late, -, hlate⟩ := hlists list hlist
      obtain ⟨-, rfl⟩ := List.append_eq_nil_iff.1 (hlate.symm.trans (hdone list hlist))
      have hflatten : lists.flatten = [] := List.flatten_eq_nil_iff.2 hdone
      simp [hflatten]
  | @turn before after concept list rest _ ih =>
      simp only [List.forall_mem_append, List.forall_mem_cons] at hlists
      obtain ⟨hbefore, ⟨late, hlate, heq⟩, hafter⟩ := hlists
      cases late with
      | nil =>
          -- The producer is ahead of all others: the concept is heard for the first time.
          obtain rfl : todo = concept :: list := heq.symm
          obtain ⟨spoken, next, hhearing, hnext⟩ := hstore.exists_hearing hresolved
          simp only [hhearing.hear_cons] at hagain ⊢
          have hbehind : ∀ other, (∃ late, late ⊆ known ∧ other = late ++ concept :: list) →
              ∃ late, late ⊆ concept :: known ∧ other = late ++ list := by
            rintro other ⟨late, hlate, rfl⟩
            have hlate' : late ++ [concept] ⊆ concept :: known :=
              List.append_subset.2 ⟨List.subset_cons_of_subset _ hlate, by simp⟩
            exact ⟨late ++ [concept], hlate', by simp⟩
          have hlists' : ∀ other ∈ before ++ list :: after,
              ∃ late, late ⊆ concept :: known ∧ other = late ++ list := by
            simp only [List.forall_mem_append, List.forall_mem_cons]
            exact ⟨fun other hmem => hbehind other (hbefore other hmem), ⟨[], by simp, rfl⟩,
              fun other hmem => hbehind other (hafter other hmem)⟩
          have hknown' : ∀ other ∈ concept :: known, ∃ settled, next.Decided other settled := by
            refine List.forall_mem_cons.2 ⟨hhearing.decided, fun other hmem => ?_⟩
            obtain ⟨settled, hsettled⟩ := hknown other hmem
            exact ⟨settled, hhearing.keeps hsettled⟩
          obtain ⟨hlast, hchanges, hperm⟩ :=
            ih hhearing.wellFormed (by simp) hlists' hknown' hnext hagain
          refine ⟨hlast, by rw [changes_cons, hchanges, ← changes_cons], ?_⟩
          rw [List.perm_iff_count] at hperm ⊢
          intro answer
          have hcount := hperm answer
          simp only [List.count_append, List.count_cons, List.map_append, List.map_cons,
            List.flatten_append, List.flatten_cons, List.cons_append] at hcount ⊢
          omega
      | cons first late =>
          -- The concept is a repetition.
          obtain ⟨rfl, rfl⟩ := List.cons.inj heq
          obtain ⟨hmem, hlate⟩ := List.cons_subset.1 hlate
          obtain ⟨settled, hsettled⟩ := hknown concept hmem
          have hlast : again concept = settled :=
            hagain concept settled (hsettled.insertAll hstore _)
          have hlists' : ∀ other ∈ before ++ (late ++ todo) :: after,
              ∃ late, late ⊆ known ∧ other = late ++ todo := by
            simp only [List.forall_mem_append, List.forall_mem_cons]
            exact ⟨hbefore, ⟨late, hlate, rfl⟩, hafter⟩
          obtain ⟨hstay, hchanges, hperm⟩ :=
            ih hstore (by simp) hlists' hknown hresolved hagain
          rw [hsettled.hear_cons hstore]
          refine ⟨hstay, by rw [changes_cons, hsettled.changes_eq_nil, hchanges]; rfl, ?_⟩
          rw [List.perm_iff_count] at hperm ⊢
          intro answer
          have hcount := hperm answer
          simp only [List.count_append, List.count_cons, List.map_append, List.map_cons,
            List.flatten_append, List.flatten_cons, List.cons_append, hlast] at hcount ⊢
          omega

/-- Several producers offer one list to an empty store. However they take turns, the store,
the changes and the verdicts are those of their offering it one after the other, and the
changes are those of offering it once. -/
theorem hear_race (schema : Schema) {concepts turns : List Concept} {lists : List (List Concept)}
    (hne : lists ≠ []) (hlists : ∀ list ∈ lists, list = concepts)
    (hresolved : (empty schema).LeavesNoneUnresolved
      (concepts.map fun concept => (concept, .seed 0)))
    (hturns : Interleaves lists turns) :
    ((empty schema).hear turns).2 = ((empty schema).hear lists.flatten).2 ∧
      ((empty schema).hear turns).1.Perm ((empty schema).hear lists.flatten).1 ∧
      changes ((empty schema).hear turns).1 = changes ((empty schema).hear concepts).1 := by
  have hstore := wellFormed_empty schema
  obtain ⟨hlast, -⟩ := hstore.insertAll (concepts.map fun concept => (concept, .seed 0))
  -- The verdict of the last store on a concept that is offered to it once more.
  let again : Concept → Except Grounds Admission := fun concept =>
    (((empty schema).hear concepts).2.hear [concept]).1.headD (.error .poisoned)
  have hagain : ∀ concept settled, ((empty schema).hear concepts).2.Decided concept settled →
      again concept = settled := by
    intro concept settled hsettled
    show ((_ : Store).hear [concept]).1.headD _ = settled
    rw [hsettled.hear_cons hlast, List.headD_cons]
  have hnone : ∀ concept ∈ ([] : List Concept), ∃ settled, (empty schema).Decided concept settled :=
    fun _ h => absurd h List.not_mem_nil
  have hear : ∀ {list}, Interleaves lists list → _ := fun h =>
    hear_interleaved h hstore hne (fun list hlist => ⟨[], by simp, hlists list hlist⟩) hnone
      hresolved hagain
  obtain ⟨hstay, hchanges, hperm⟩ := hear hturns
  obtain ⟨hstay', -, hperm'⟩ := hear (.flatten lists)
  exact ⟨hstay.trans hstay'.symm, (List.perm_append_right_iff _).1 (hperm.trans hperm'.symm),
    hchanges⟩

/-! ## Who stores a key -/

/-- Whether an offer stores the key: it is an offer of the key, and the concept enters the
store. -/
def Stores (key : Key) : (Concept × Origin) × Except StoreError Admission → Bool
  | ((concept, _), .ok admission) => decide (concept.key = key) && admission.isNew
  | (_, .error _) => false

/-- A key is stored after an admission if it was before or is stored by it, not both. -/
theorem WellFormed.contains_of_insert (hstore : store.WellFormed)
    (hinsert : store.insert concept origin = .ok (admission, next)) (key : Key) :
    (next.contains key).toNat =
      (Stores key ((concept, origin), .ok admission)).toNat + (store.contains key).toNat := by
  obtain ⟨kind, -, -, hinsertion⟩ := insert_eq_ok_iff.1 hinsert
  cases hinsertion with
  | @admitted id hid hnew =>
      have hfresh := hstore.find?_eq_none_iff.1 hnew
      simp only [contains_iff_isSome_idOf?, idOf?_push]
      by_cases hkey : key = concept.key
      · subst hkey
        simp [Stores, hfresh, Admission.isNew]
      · simp [Stores, hkey, Ne.symm hkey]
  | alreadyPresent => simp [Stores, Admission.isNew]
  | merged =>
      simp only [Stores, Admission.isNew, Bool.and_false, Bool.toNat_false, Nat.zero_add]
      rfl

/-- A key is stored once at most, and exactly once if it is stored in the end and was not
before. -/
theorem WellFormed.countP_stores (hstore : store.WellFormed)
    (attempts : List (Concept × Origin)) (key : Key) :
    (attempts.zip (store.insertAll attempts).1).countP (Stores key) +
      (store.contains key).toNat = ((store.insertAll attempts).2.contains key).toNat := by
  induction attempts generalizing store with
  | nil => simp
  | cons attempt rest ih =>
      obtain ⟨concept, origin⟩ := attempt
      cases hinsert : store.insert concept origin with
      | error error =>
          rw [insertAll_cons_of_error hinsert, List.zip_cons_cons,
            List.countP_cons_of_neg (by simp [Stores]), ih hstore]
      | ok answer =>
          have hcontains := hstore.contains_of_insert hinsert key
          have hrest := ih (hstore.insert hinsert)
          rw [insertAll_cons_of_ok hinsert, List.zip_cons_cons, List.countP_cons]
          cases hstores : Stores key ((concept, origin), .ok answer.1) <;>
            simp only [hstores, Bool.toNat_true, Bool.toNat_false] at hcontains ⊢ <;>
            simp <;> omega

/-- Whatever succeeds is answered with the identifier that its key has in the end. -/
theorem WellFormed.idOf?_of_mem_answers (hstore : store.WellFormed)
    {attempts : List (Concept × Origin)} {attempt : Concept × Origin} {admission : Admission}
    (hmem : (attempt, .ok admission) ∈ attempts.zip (store.insertAll attempts).1) :
    (store.insertAll attempts).2.idOf? attempt.1.key = some admission.id := by
  induction attempts generalizing store with
  | nil => simp at hmem
  | cons first rest ih =>
      obtain ⟨concept, origin⟩ := first
      cases hinsert : store.insert concept origin with
      | error error =>
          rw [insertAll_cons_of_error hinsert] at hmem ⊢
          simp only [List.zip_cons_cons, List.mem_cons, Prod.mk.injEq, reduceCtorEq, and_false,
            false_or] at hmem
          exact ih hstore hmem
      | ok answer =>
          have hnext := hstore.insert hinsert
          rw [insertAll_cons_of_ok hinsert] at hmem ⊢
          rw [List.zip_cons_cons, List.mem_cons] at hmem
          obtain heq | hmem := hmem
          · obtain ⟨rfl, hanswer⟩ := Prod.mk.inj heq
            obtain rfl := Except.ok.inj hanswer
            obtain ⟨-, hgrows⟩ := hnext.insertAll rest
            exact hgrows.idOf? (hstore.idOf?_of_insert hinsert)
          · exact ih hnext hmem

end Store

/-! ## Races -/

/-- Who offers concepts, one after the other, through a handle of its own. -/
structure Producer where
  /-- The handle. -/
  handle : String
  /-- What it offers. -/
  offers : List (Concept × Origin)

/-- The offers of a producer, each with the handle. -/
def Producer.turns (producer : Producer) : List (String × Concept × Origin) :=
  producer.offers.map fun offer => (producer.handle, offer)

namespace SharedStore

/-- Some offers through handles, one after the other. -/
def race (shared : SharedStore) (turns : List (String × Concept × Origin)) :
    List HandleAnswer × SharedStore :=
  shared.performAll (turns.map fun turn => (turn.1, .insert turn.2.1 turn.2.2))

/-- Through live handles offers are made as if directly to the store. -/
theorem race_eq {shared : SharedStore} {turns : List (String × Concept × Origin)}
    (hlive : ∀ turn ∈ turns, shared.isLive turn.1 = true) :
    shared.race turns =
      ((shared.store.insertAll (turns.map (·.2))).1.map .inserted,
        { shared with store := (shared.store.insertAll (turns.map (·.2))).2 }) := by
  induction turns generalizing shared with
  | nil => rfl
  | cons turn rest ih =>
      obtain ⟨handle, concept, origin⟩ := turn
      obtain ⟨hhandle, hrest⟩ := List.forall_mem_cons.1 hlive
      show shared.performAll ((handle, .insert concept origin) :: _) = _
      rw [performAll, perform, if_pos hhandle]
      cases hinsert : shared.store.insert concept origin with
      | error error =>
          have hnext := ih hrest
          unfold race at hnext
          simp only [SharedStore.insert, hinsert, hnext, List.map_cons,
            Store.insertAll_cons_of_error hinsert]
      | ok answer =>
          have hnext := @ih { shared with store := answer.2 } hrest
          unfold race at hnext
          simp only [SharedStore.insert, hinsert, hnext, List.map_cons,
            Store.insertAll_cons_of_ok hinsert]

/-- The identifiers, keys and concepts of a shared store. -/
def contents (shared : SharedStore) : List (ConceptId × Key × Concept) :=
  shared.store.entries.toList.map fun entry => (entry.id, entry.key, entry.concept)

/-- What producers who all offer the concepts of one list make of an empty store, in their
race and when they take their turns one after the other: answers with the same verdicts,
each as often, the same contents, and in the race the changes of offering the list once. -/
structure RacesAs (shared : SharedStore) (once : List (Concept × Origin))
    (producers : List Producer) (answers : List (Except StoreError Admission))
    (last : SharedStore) : Prop where
  inTurn : ∃ (answers' : List (Except StoreError Admission)) (last' : SharedStore),
    shared.race (producers.flatMap Producer.turns) = (answers'.map .inserted, last') ∧
      (answers.map verdict).Perm (answers'.map verdict) ∧ last.contents = last'.contents
  changes : changes (answers.map verdict) = changes ((shared.store.insertAll once).1.map verdict)

theorem contents_eq_of_unattributed {a b : SharedStore}
    (h : a.store.unattributed = b.store.unattributed) : a.contents = b.contents := by
  have hbare : ∀ shared : SharedStore, shared.contents =
      shared.store.unattributed.entries.toList.map fun entry =>
        (entry.id, entry.key, entry.concept) := fun shared => by
    simp [contents, Store.unattributed, Store.mapOrigins, Entry.mapOrigin]
  rw [hbare, hbare, h]

/-- Producers race into an empty store, each through a live handle, and are served in
whatever order.

If each of them offers the concepts of one list, in its order, and none of these waits for
a key reference when the list is offered once, then every verdict is given as often, and
the store ends with the same identifiers, keys and concepts, as if the producers had come
one after the other; and what the offers change, one after the other, is what offering the
list once changes.

Whatever the producers offer, every key that is stored in the end was stored by exactly
one offer, and all successful offers of it were told one identifier. -/
theorem race_of_interleaves {schema : Schema} {shared : SharedStore} {producers : List Producer}
    {turns : List (String × Concept × Origin)} (hempty : shared.store = .empty schema)
    (hlive : ∀ producer ∈ producers, shared.isLive producer.handle = true)
    (hturns : Interleaves (producers.map Producer.turns) turns) :
    ∃ answers last, shared.race turns = (answers.map .inserted, last) ∧
      (∀ once : List (Concept × Origin), producers ≠ [] →
        (∀ producer ∈ producers, producer.offers.map (·.1) = once.map (·.1)) →
        (Store.empty schema).LeavesNoneUnresolved once →
          shared.RacesAs once producers answers last) ∧
      ∀ key, last.store.contains key = true →
        ((turns.map (·.2)).zip answers).countP (Store.Stores key) = 1 ∧
        ∃ id, ∀ offer admission, (offer, .ok admission) ∈ (turns.map (·.2)).zip answers →
          offer.1.key = key → admission.id = id := by
  have hhandles : ∀ {turns : List (String × Concept × Origin)},
      Interleaves (producers.map Producer.turns) turns →
        ∀ turn ∈ turns, shared.isLive turn.1 = true := by
    intro turns hturns turn hturn
    obtain ⟨source, hsource, hmem⟩ := hturns.exists_mem hturn
    obtain ⟨producer, hproducer, rfl⟩ := List.mem_map.1 hsource
    obtain ⟨offer, -, rfl⟩ := List.mem_map.1 hmem
    exact hlive producer hproducer
  have hstore := Store.wellFormed_empty schema
  refine ⟨_, _, race_eq (hhandles hturns), ?_, ?_⟩
  · intro once hne honce hresolved
    have hinTurn := Interleaves.flatten (producers.map Producer.turns)
    rw [← List.flatMap_def] at hinTurn
    have hlists : ∀ list ∈ (producers.map Producer.turns).map (List.map fun turn => turn.2.1),
        list = once.map (·.1) := by
      rintro list hlist
      obtain ⟨turns, hturns, rfl⟩ := List.mem_map.1 hlist
      obtain ⟨producer, hproducer, rfl⟩ := List.mem_map.1 hturns
      rw [← honce producer hproducer, Producer.turns, List.map_map]
      rfl
    obtain ⟨hstay, hperm, hchanges⟩ := Store.hear_race schema (by simpa using hne) hlists
      hresolved.unattributed (hturns.map fun turn => turn.2.1)
    have hheard : ∀ turns : List (String × Concept × Origin),
        (Store.empty schema).hear (turns.map fun turn => turn.2.1) = _ := fun turns =>
      (congrArg (Store.empty schema).hear (List.map_map ..).symm).trans
        (Store.hear_empty schema (turns.map (·.2)))
    rw [← List.map_flatten, ← List.flatMap_def] at hstay hperm
    simp only [hheard, Store.hear_empty] at hstay hperm hchanges
    rw [hempty]
    refine ⟨⟨_, _, race_eq (hhandles hinTurn), ?_, ?_⟩, ?_⟩
    · rw [hempty]
      exact hperm
    · exact contents_eq_of_unattributed (by simpa only [hempty] using hstay)
    · rw [hempty]
      exact hchanges
  · intro key hkey
    rw [hempty] at hkey ⊢
    have hcount := hstore.countP_stores (turns.map (·.2)) key
    have hnone : (Store.empty schema).contains key = false := by
      simp [Store.contains_iff_isSome_idOf?, Store.empty, Store.idOf?]
    rw [hkey, hnone] at hcount
    obtain ⟨entry, hentry⟩ := (hstore.insertAll (turns.map (·.2))).1.contains_iff.1 hkey
    refine ⟨hcount, entry.id, fun offer admission hmem hoffer => ?_⟩
    have hid := hstore.idOf?_of_mem_answers hmem
    have hid' := (hstore.insertAll (turns.map (·.2))).1.idOf?_of_find? hentry
    rw [hoffer, hid'] at hid
    exact (Option.some.inj hid).symm

end SharedStore

/-! ## A harbour -/

namespace Harbour

/-- Ships, of which cargo becomes known bit by bit. -/
def schema : Schema :=
  .ofKinds [{ name := "S", keyFields := ["n"], cumulative := .ofNames ["cargo"] }]

/-- A ship under a flag, with some of its cargo. -/
def ship (n : Int64) (flag : String) (cargo : Value) : Concept where
  kind := "S"
  fields := [.int n]
  payload := .ofList [("flag", .string flag), ("cargo", cargo)]

/-- What is seen from either tower: a ship, the same ship under another flag, more of its
cargo, something that is no ship, and another ship. -/
def sightings (origin : Origin) : List (Concept × Origin) :=
  [ship 1 "red" (.int 2), ship 1 "blue" .null, ship 1 "red" (.list [.int 3, .int 1]),
    { kind := "X", fields := [] }, ship 2 "blue" .null].map (·, origin)

/-- The harbour master's book, to which both towers have access. -/
def book : SharedStore :=
  (SharedStore.ofStore (.empty schema) "east").clone "west"

/-- Both towers report what they see. -/
def towers : List Producer :=
  [⟨"east", sightings (.seed 0)⟩, ⟨"west", sightings (.seed 1)⟩]

/-- The towers report by turns: the western one repeats the first sighting, takes the lead
and is overtaken in the end. -/
def turns : List (String × Concept × Origin) :=
  let east := (⟨"east", sightings (.seed 0)⟩ : Producer).turns
  let west := (⟨"west", sightings (.seed 1)⟩ : Producer).turns
  east.take 1 ++ west.take 4 ++ east.drop 1 ++ west.drop 4

theorem interleaves_turns : Interleaves (towers.map Producer.turns) turns :=
  .turn [] _ <| .turn [_] [] <| .turn [_] [] <| .turn [_] [] <| .turn [_] [] <|
    .turn [] _ <| .turn [] _ <| .turn [] _ <| .turn [] _ <| .turn [_] [] <|
      .done (by simp)

theorem leavesNoneUnresolved_sightings :
    (Store.empty schema).LeavesNoneUnresolved (sightings (.seed 2)) := by
  have hcheck : ((Store.empty schema).insertAll (sightings (.seed 2))).1.all (fun answer =>
      match answer with
      | .ok _ => true
      | .error error => !error.isTransient) = true := by cbv
  rintro answer hanswer referrer target rfl
  exact absurd (List.all_eq_true.1 hcheck _ hanswer) (by simp [StoreError.isTransient])

/-- The book is the one that a single tower would have led to: the first ship is entered
once and gets cargo once, and the second one is entered once. -/
theorem race_of_towers : ∃ answers last, book.race turns = (answers.map .inserted, last) ∧
    book.RacesAs (sightings (.seed 2)) towers answers last ∧
    changes (answers.map verdict) =
      [.admitted ⟨0, by decide⟩, .merged ⟨0, by decide⟩, .admitted ⟨1, by decide⟩] ∧
    ∀ key, last.store.contains key = true →
      ((turns.map (·.2)).zip answers).countP (Store.Stores key) = 1 := by
  have hempty : book.store = .empty schema := rfl
  have hlive : ∀ producer ∈ towers, book.isLive producer.handle = true := by decide
  have honce : ∀ producer ∈ towers,
      producer.offers.map (·.1) = (sightings (.seed 2)).map (·.1) := by decide
  have hchanges : changes (((Store.empty schema).insertAll (sightings (.seed 2))).1.map verdict) =
      [.admitted ⟨0, by decide⟩, .merged ⟨0, by decide⟩, .admitted ⟨1, by decide⟩] := by cbv
  obtain ⟨answers, last, hrace, hraces, hstores⟩ :=
    SharedStore.race_of_interleaves hempty hlive interleaves_turns
  have htowers := hraces (sightings (.seed 2)) (by decide) honce leavesNoneUnresolved_sightings
  exact ⟨answers, last, hrace, htowers, htowers.changes.trans hchanges,
    fun key hkey => (hstores key hkey).1⟩

end Harbour

end ConceptExpansion
