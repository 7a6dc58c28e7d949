/-
# Stores only grow

One description of a concept lies within another if it has the same key, the
same attributes apart from the cumulative ones, and no cumulative attribute or
item that the other lacks. Admission replaces a stored description by one that
it lies within, and adds at most one concept at the end. A store represents a
concept if the concept lies within what is stored under its key: admission
makes a store represent the admitted concept, a store that grows goes on
representing it, and to admit a represented concept again changes nothing.
-/

import ConceptExpansion.Proofs.Store.WellFormed

namespace ConceptExpansion

namespace Schema

variable {schema : Schema}

/-- Whether the concepts of a kind have a cumulative attribute of this name. -/
def isCumulative (schema : Schema) (kind name : String) : Bool :=
  (schema.get? kind).any (·.isCumulative name)

/-- All that `a` says, `b` says too, and `b` adds nothing outside the cumulative
attributes. -/
structure Within (schema : Schema) (a b : Concept) : Prop where
  key : a.key = b.key
  plain : ∀ name, schema.isCumulative a.kind name = false →
    a.attribute? name = b.attribute? name
  present : ∀ name, schema.isCumulative a.kind name = true →
    (a.attribute? name).isSome → (b.attribute? name).isSome
  items : ∀ name, schema.isCumulative a.kind name = true →
    ∀ x ∈ Value.contributed (a.attribute? name), x ∈ Value.contributed (b.attribute? name)

namespace Within

theorem refl (a : Concept) : schema.Within a a :=
  ⟨rfl, fun _ _ => rfl, fun _ _ h => h, fun _ _ _ h => h⟩

theorem kind {a b : Concept} (h : schema.Within a b) : a.kind = b.kind :=
  congrArg Key.kind h.key

theorem trans {a b c : Concept} (hab : schema.Within a b) (hbc : schema.Within b c) :
    schema.Within a c where
  key := hab.key.trans hbc.key
  plain name h := (hab.plain name h).trans (hbc.plain name (hab.kind ▸ h))
  present name h hsome := hbc.present name (hab.kind ▸ h) (hab.present name h hsome)
  items name h x hx := hbc.items name (hab.kind ▸ h) x (hab.items name h x hx)

end Within

theorem get?_of_validate {concept : Concept} {kind : KindDef}
    (h : schema.validate concept = .ok kind) : schema.get? concept.kind = some kind := by
  unfold validate at h
  split at h
  · cases h
  · next hget =>
      split at h
      · rw [hget, Except.ok.inj h]
      · cases h

theorem isCumulative_of_validate {concept : Concept} {kind : KindDef}
    (h : schema.validate concept = .ok kind) (name : String) :
    schema.isCumulative concept.kind name = kind.isCumulative name := by
  rw [isCumulative, get?_of_validate h, Option.any_some]

/-- A concept lies within any other with its key and its plain attributes whose
cumulative attributes are united with its own. -/
theorem within_of_unite? {a b : Concept} {kind : KindDef} (h : schema.validate a = .ok kind)
    (hkey : a.key = b.key)
    (hplain : ∀ name, kind.isCumulative name = false → a.attribute? name = b.attribute? name)
    (hcumulative : ∀ name, kind.isCumulative name = true →
      ∃ rest, b.attribute? name = Value.unite? rest (a.attribute? name)) :
    schema.Within a b where
  key := hkey
  plain name hname := by
    rw [isCumulative_of_validate h] at hname
    exact hplain name hname
  present name hname hsome := by
    rw [isCumulative_of_validate h] at hname
    obtain ⟨rest, hrest⟩ := hcumulative name hname
    rw [hrest, Value.isSome_unite?, hsome, Bool.or_true]
  items name hname x hx := by
    rw [isCumulative_of_validate h] at hname
    obtain ⟨rest, hrest⟩ := hcumulative name hname
    rw [hrest, Value.mem_contributed_unite?]
    exact .inr hx

/-- Writing cumulative attributes as sets takes nothing away. -/
theorem within_normalize {concept : Concept} {kind : KindDef}
    (h : schema.validate concept = .ok kind) :
    schema.Within concept (concept.setPayload (kind.normalize concept.payload)) := by
  apply within_of_unite? h
  · rfl
  · intro name hname
    exact (kind.get?_normalize_of_not_cumulative concept.payload hname).symm
  · intro name hname
    exact ⟨none, kind.get?_normalize_of_cumulative concept.payload hname⟩

/-- A description lies within whatever it is merged with. -/
theorem within_merge_left {concept : Concept} {kind : KindDef} (incoming : Attributes)
    (h : schema.validate concept = .ok kind) :
    schema.Within concept (concept.setPayload (kind.merge concept.payload incoming)) := by
  apply within_of_unite? h
  · rfl
  · intro name hname
    exact (kind.get?_merge_of_not_cumulative concept.payload incoming hname).symm
  · intro name hname
    have hmerge := kind.get?_merge_of_cumulative concept.payload incoming hname
    exact ⟨incoming.get? name, hmerge.trans (Value.unite?_comm _ _)⟩

/-- A description that does not disagree with a stored one lies within the two
merged. -/
theorem within_merge_right {existing incoming : Concept} {kind : KindDef}
    (hkey : incoming.key = existing.key) (h : schema.validate incoming = .ok kind)
    (hagree : kind.disagreement? existing.payload incoming.payload = none) :
    schema.Within incoming
      (existing.setPayload (kind.merge existing.payload incoming.payload)) := by
  rw [KindDef.disagreement?_eq_none_iff] at hagree
  apply within_of_unite? h
  · exact hkey
  · intro name hname
    have hmerge := kind.get?_merge_of_not_cumulative existing.payload incoming.payload hname
    exact (hmerge.trans (hagree name hname)).symm
  · intro name hname
    have hmerge := kind.get?_merge_of_cumulative existing.payload incoming.payload hname
    exact ⟨existing.payload.get? name, hmerge⟩

end Schema

namespace Store

variable {store next : Store} {concept : Concept} {origin : Origin} {admission : Admission}

/-! ## What an admission can do -/

/-- The ways in which a concept of a kind enters a store: under a new key, as
something the store says already, or merged into what is stored. -/
inductive Insertion (store : Store) (kind : KindDef) (concept : Concept) (origin : Origin) :
    Admission → Store → Prop
  | admitted {id : ConceptId} (hid : ConceptId.ofIndex? store.size = some id)
      (hnew : store.find? concept.key = none) :
      Insertion store kind concept origin (.admitted id)
        (store.push
          { id, key := concept.key
            concept := concept.setPayload (kind.normalize concept.payload), origin })
  | alreadyPresent {entry : Entry} (hfind : store.find? concept.key = some entry)
      (hagree : kind.disagreement? entry.concept.payload concept.payload = none)
      (hsame : kind.merge entry.concept.payload concept.payload = entry.concept.payload) :
      Insertion store kind concept origin (.alreadyPresent entry.id) store
  | merged {entry : Entry} (hfind : store.find? concept.key = some entry)
      (hagree : kind.disagreement? entry.concept.payload concept.payload = none)
      (hgrown : kind.merge entry.concept.payload concept.payload ≠ entry.concept.payload) :
      Insertion store kind concept origin (.merged entry.id)
        (store.setPayload entry.id (kind.merge entry.concept.payload concept.payload))

theorem insertion_of_insertNew {kind : KindDef} (hnew : store.find? concept.key = none)
    (h : store.insertNew kind concept origin = .ok (admission, next)) :
    Insertion store kind concept origin admission next := by
  unfold insertNew at h
  split at h
  · cases h
  · next hid =>
      cases h
      exact .admitted hid hnew

theorem insertion_of_reinsert {kind : KindDef} {entry : Entry}
    (hfind : store.find? concept.key = some entry)
    (h : store.reinsert kind entry concept origin = .ok (admission, next)) :
    Insertion store kind concept origin admission next := by
  unfold reinsert at h
  split at h
  · cases h
  · next hagree =>
      dsimp only at h
      split at h
      · next hsame =>
          cases h
          exact .alreadyPresent hfind hagree hsame
      · next hgrown =>
          cases h
          exact .merged hfind hagree hgrown

/-- An admission succeeds exactly if the concept fits the schema, its key
references lead somewhere and it enters in one of the three ways. -/
theorem insert_eq_ok_iff :
    store.insert concept origin = .ok (admission, next) ↔
      ∃ kind, store.schema.validate concept = .ok kind ∧ store.missingTarget? concept = none ∧
        Insertion store kind concept origin admission next := by
  unfold insert
  constructor
  · intro h
    split at h
    · cases h
    · next kind hvalid =>
        split at h
        · cases h
        · next hmissing =>
            refine ⟨kind, hvalid, hmissing, ?_⟩
            split at h
            · next hfind => exact insertion_of_reinsert hfind h
            · next hnew => exact insertion_of_insertNew hnew h
  · rintro ⟨kind, hvalid, hmissing, hinsertion⟩
    rw [hvalid, hmissing]
    cases hinsertion with
    | admitted hid hnew => simp [hnew, insertNew, hid]
    | alreadyPresent hfind hagree hsame => simp [hfind, reinsert, hagree, hsame]
    | merged hfind hagree hgrown => simp [hfind, reinsert, hagree, hgrown]

theorem index_of_ofIndex? {index : Nat} {id : ConceptId}
    (h : ConceptId.ofIndex? index = some id) : id.index = index := by
  unfold ConceptId.ofIndex? at h
  split at h
  · cases h
    rfl
  · cases h

/-- The declared kind of a stored concept is the kind under which any concept
with its key is validated. -/
theorem WellFormed.validate_entry (hstore : store.WellFormed) {kind : KindDef} {entry : Entry}
    (hvalid : store.schema.validate concept = .ok kind)
    (hfind : store.find? concept.key = some entry) :
    store.schema.validate entry.concept = .ok kind := by
  obtain ⟨hget, hkey⟩ := hstore.find?_eq_some_iff.1 hfind
  exact Schema.validate_congr _ (hkey.symm.trans (hstore.concept_key hget).symm) hvalid

/-- A cumulative attribute of a stored concept is written as a set. -/
theorem WellFormed.isSet_of_cumulative (hstore : store.WellFormed) {id : ConceptId}
    {entry : Entry} (hget : store.get? id = some entry) {name : String} {value : Value}
    (hname : store.schema.isCumulative entry.concept.kind name = true)
    (hvalue : value ∈ entry.concept.attribute? name) : value.IsSet := by
  obtain ⟨kind, hvalid, hnormal⟩ := hstore.valid hget
  rw [Schema.isCumulative_of_validate hvalid] at hname
  exact hnormal name hname value hvalue

/-- Admission keeps a store well-formed. -/
theorem WellFormed.insert (hstore : store.WellFormed)
    (h : store.insert concept origin = .ok (admission, next)) : next.WellFormed := by
  obtain ⟨kind, hvalid, hmissing, hinsertion⟩ := insert_eq_ok_iff.1 h
  cases hinsertion with
  | admitted hid hnew =>
      exact hstore.push (index_of_ofIndex? hid) rfl hnew (Schema.validate_congr _ rfl hvalid)
        (KindDef.normal_normalize _) ((missingTarget?_congr store rfl).trans hmissing)
  | alreadyPresent => exact hstore
  | merged hfind =>
      exact hstore.setPayload (hstore.find?_eq_some_iff.1 hfind).1
        (hstore.validate_entry hvalid hfind) (KindDef.normal_merge _ _)

/-! ## Growth -/

/-- Every stored concept stays where it is, with its key and its origin, and
what was said of it is still said. -/
structure Grows (store next : Store) : Prop where
  schema : next.schema = store.schema
  idOf? : ∀ {key : Key} {id : ConceptId}, store.idOf? key = some id → next.idOf? key = some id
  entry : ∀ {id : ConceptId} {entry : Entry}, store.get? id = some entry →
    ∃ later, next.get? id = some later ∧ later.key = entry.key ∧ later.origin = entry.origin ∧
      store.schema.Within entry.concept later.concept

namespace Grows

theorem refl (store : Store) : Grows store store :=
  ⟨rfl, id, fun h => ⟨_, h, rfl, rfl, .refl _⟩⟩

theorem trans {a b c : Store} (hab : Grows a b) (hbc : Grows b c) : Grows a c := by
  refine ⟨hbc.schema.trans hab.schema, fun h => hbc.idOf? (hab.idOf? h), fun h => ?_⟩
  obtain ⟨later, hlater, hkey, horigin, hwithin⟩ := hab.entry h
  obtain ⟨last, hlast, hkey', horigin', hwithin'⟩ := hbc.entry hlater
  rw [hab.schema] at hwithin'
  exact ⟨last, hlast, hkey'.trans hkey, horigin'.trans horigin, hwithin.trans hwithin'⟩

theorem resolvable (hgrows : Grows store next) {target : Key}
    (h : store.resolvable target = true) : next.resolvable target = true := by
  apply resolvable_of_contains hgrows.schema.symm (fun hcontains => ?_) h
  rw [contains_iff_isSome_idOf?] at hcontains ⊢
  obtain ⟨id, hid⟩ := Option.isSome_iff_exists.1 hcontains
  rw [hgrows.idOf? hid]
  rfl

/-- A reference that leads somewhere goes on doing so. -/
theorem missingTarget? (hgrows : Grows store next) (h : store.missingTarget? concept = none) :
    next.missingTarget? concept = none := by
  rw [missingTarget?_eq_none_iff] at h ⊢
  exact fun target htarget => hgrows.resolvable (h target htarget)

end Grows

theorem grows_push (hstore : store.WellFormed) {entry : Entry}
    (hnew : store.find? entry.key = none) : Grows store (store.push entry) := by
  refine ⟨rfl, fun {key id} h => ?_, fun {id old} h => ⟨old, ?_, rfl, rfl, .refl _⟩⟩
  · rw [idOf?_push, if_neg, h]
    intro hkey
    rw [hkey, hstore.find?_eq_none_iff.1 hnew] at h
    cases h
  · rw [get?_push, if_neg, h]
    intro hindex
    have hbound : id.index < store.size := (Array.getElem?_eq_some_iff.1 h).1
    omega

theorem grows_setPayload {id : ConceptId} {entry : Entry} {payload : Attributes}
    (hget : store.get? id = some entry)
    (hwithin : store.schema.Within entry.concept (entry.concept.setPayload payload)) :
    Grows store (store.setPayload id payload) := by
  refine ⟨rfl, fun h => h, fun {other old} h => ?_⟩
  rw [get?_setPayload]
  by_cases hother : other = id
  · obtain rfl : old = entry := Option.some.inj (h.symm.trans (hother ▸ hget))
    rw [if_pos hother, hget]
    exact ⟨_, rfl, rfl, rfl, hwithin⟩
  · rw [if_neg hother, h]
    exact ⟨_, rfl, rfl, rfl, .refl _⟩

/-- Admission makes a store grow. -/
theorem WellFormed.grows_insert (hstore : store.WellFormed)
    (h : store.insert concept origin = .ok (admission, next)) : Grows store next := by
  obtain ⟨kind, hvalid, -, hinsertion⟩ := insert_eq_ok_iff.1 h
  cases hinsertion with
  | admitted hid hnew => exact grows_push hstore hnew
  | alreadyPresent => exact .refl store
  | merged hfind =>
      exact grows_setPayload (hstore.find?_eq_some_iff.1 hfind).1
        (Schema.within_merge_left _ (hstore.validate_entry hvalid hfind))

/-! ## Representation -/

/-- The store says of the concept's key all that the concept says. -/
def Represents (store : Store) (concept : Concept) : Prop :=
  ∃ entry, store.find? concept.key = some entry ∧ store.schema.Within concept entry.concept

theorem Represents.exists_entry (h : store.Represents concept) (hstore : store.WellFormed) :
    ∃ entry ∈ store.entries, entry.key = concept.key ∧
      store.schema.Within concept entry.concept := by
  obtain ⟨entry, hfind, hwithin⟩ := h
  obtain ⟨hget, hkey⟩ := hstore.find?_eq_some_iff.1 hfind
  exact ⟨entry, Array.mem_of_getElem? hget, hkey, hwithin⟩

theorem Grows.find? (hgrows : Grows store next) (hstore : store.WellFormed)
    (hnext : next.WellFormed) {key : Key} {entry : Entry} (h : store.find? key = some entry) :
    ∃ later, next.find? key = some later ∧ store.schema.Within entry.concept later.concept := by
  obtain ⟨hget, hkey⟩ := hstore.find?_eq_some_iff.1 h
  obtain ⟨later, hlater, hkey', -, hwithin⟩ := hgrows.entry hget
  have hid : later.id = entry.id := hnext.id_of_get? hlater
  exact ⟨later, hnext.find?_eq_some_iff.2 ⟨hid ▸ hlater, hkey'.trans hkey⟩, hwithin⟩

/-- What represents a concept is the entry with its key. -/
theorem Represents.within (h : store.Represents concept) (hstore : store.WellFormed)
    {entry : Entry} (hentry : entry ∈ store.entries) (hkey : concept.key = entry.key) :
    store.schema.Within concept entry.concept := by
  obtain ⟨found, hfind, hwithin⟩ := h
  have hentry' := hstore.find?_eq_some_iff.2 ⟨hstore.get?_of_mem hentry, hkey.symm⟩
  obtain rfl : found = entry := Option.some.inj (hfind.symm.trans hentry')
  exact hwithin

theorem Represents.grows (h : store.Represents concept) (hgrows : Grows store next)
    (hstore : store.WellFormed) (hnext : next.WellFormed) : next.Represents concept := by
  obtain ⟨entry, hfind, hwithin⟩ := h
  obtain ⟨later, hlater, hwithin'⟩ := hgrows.find? hstore hnext hfind
  exact ⟨later, hlater, hgrows.schema ▸ hwithin.trans hwithin'⟩

theorem find?_push_self {entry : Entry} (hid : entry.id.index = store.size) :
    (store.push entry).find? entry.key = some entry := by
  unfold find?
  rw [idOf?_push, if_pos rfl, Option.bind_some, get?_push, if_pos hid]

theorem WellFormed.find?_setPayload_self (hstore : store.WellFormed) {key : Key} {entry : Entry}
    {payload : Attributes} (hfind : store.find? key = some entry) :
    (store.setPayload entry.id payload).find? key =
      some { entry with concept := entry.concept.setPayload payload } := by
  have hget := (hstore.find?_eq_some_iff.1 hfind).1
  unfold find?
  rw [show (store.setPayload entry.id payload).idOf? key = some entry.id from
    hstore.idOf?_of_find? hfind, Option.bind_some, get?_setPayload, if_pos rfl, hget,
    Option.map_some]

/-- What is admitted is represented. -/
theorem WellFormed.represents_of_insert (hstore : store.WellFormed)
    (h : store.insert concept origin = .ok (admission, next)) : next.Represents concept := by
  obtain ⟨kind, hvalid, -, hinsertion⟩ := insert_eq_ok_iff.1 h
  have hkey : ∀ {entry : Entry}, store.find? concept.key = some entry →
      concept.key = entry.concept.key := fun hfind => by
    obtain ⟨hget, hkey⟩ := hstore.find?_eq_some_iff.1 hfind
    rw [hstore.concept_key hget, hkey]
  cases hinsertion with
  | admitted hid hnew =>
      exact ⟨_, find?_push_self (index_of_ofIndex? hid), Schema.within_normalize hvalid⟩
  | alreadyPresent hfind hagree hsame =>
      refine ⟨_, hfind, ?_⟩
      have hwithin := Schema.within_merge_right (hkey hfind) hvalid hagree
      rwa [hsame] at hwithin
  | merged hfind hagree hgrown =>
      exact ⟨_, hstore.find?_setPayload_self hfind,
        Schema.within_merge_right (hkey hfind) hvalid hagree⟩

/-- To admit a represented concept again changes nothing, whatever its origin. -/
theorem Represents.insert_eq (h : store.Represents concept) (hstore : store.WellFormed)
    (origin : Origin) :
    ∃ id, store.insert concept origin = .ok (.alreadyPresent id, store) := by
  obtain ⟨entry, hfind, hwithin⟩ := h
  obtain ⟨kind, hvalid, hnormal⟩ := hstore.valid (hstore.find?_eq_some_iff.1 hfind).1
  have hvalid' := Schema.validate_congr _ hwithin.key.symm hvalid
  have hcumulative := Schema.isCumulative_of_validate hvalid'
  have hresolved := hstore.missingTarget?_of_find? hfind
  refine ⟨entry.id, insert_eq_ok_iff.2 ⟨kind, hvalid', hresolved, .alreadyPresent hfind ?_ ?_⟩⟩
  · rw [KindDef.disagreement?_eq_none_iff]
    exact fun name hname => (hwithin.plain name ((hcumulative name).trans hname)).symm
  · rw [KindDef.merge_eq_self_iff hnormal]
    intro name hname
    have hname' := (hcumulative name).trans hname
    exact ⟨hwithin.present name hname', hwithin.items name hname'⟩

/-- To admit these concepts one after the other, whatever their origins, is
answered each time by what is stored already, and the store stays as it is. -/
def Absorbs (store : Store) (concepts : List Concept) : Prop :=
  ∀ offered : List (Concept × Origin), offered.map (·.1) = concepts →
    (store.insertAll offered).2 = store ∧
      ∀ answer ∈ (store.insertAll offered).1, ∃ id, answer = .ok (.alreadyPresent id)

theorem absorbs_of_represents (hstore : store.WellFormed) {concepts : List Concept}
    (h : ∀ concept ∈ concepts, store.Represents concept) : store.Absorbs concepts := by
  intro offered hoffered
  subst hoffered
  induction offered with
  | nil => exact ⟨rfl, by simp [insertAll]⟩
  | cons first rest ih =>
      obtain ⟨id, hinsert⟩ := (h first.1 (by simp)).insert_eq hstore first.2
      obtain ⟨hstay, hanswers⟩ := ih fun concept hconcept => h concept (by simp_all)
      simp only [insertAll, hinsert]
      refine ⟨hstay, fun answer hanswer => ?_⟩
      rcases List.mem_cons.1 hanswer with rfl | hanswer
      · exact ⟨id, rfl⟩
      · exact hanswers answer hanswer

end Store

end ConceptExpansion
