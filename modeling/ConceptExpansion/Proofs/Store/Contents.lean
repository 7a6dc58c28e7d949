/-
# The contents of a store

What a store says is the map from keys to concepts; identifiers, origins and the
order of admission are left aside. A store lies below another if the other
represents all that it says. Stores that lie below each other have the same
contents, because a stored description is normal.

Whatever is represented above can be admitted below: there is nothing that it
could conflict with, and there is room for it.
-/

import ConceptExpansion.Proofs.Store.Listing
import ConceptExpansion.Proofs.Store.Spanning

namespace ConceptExpansion

/-- A concept is its key with its attributes. -/
theorem Concept.eq_of_attributes {a b : Concept} (hkey : a.key = b.key)
    (h : ∀ name, a.attribute? name = b.attribute? name) : a = b := by
  have hpayload : a.payload = b.payload := NameMap.ext_get? h
  cases a
  cases b
  cases hkey
  cases hpayload
  rfl

theorem Concept.attribute?_setAttribute (concept : Concept) (name other : String) (value : Value) :
    (concept.setAttribute name value).attribute? other =
      if other = name then some value else concept.attribute? other :=
  NameMap.get?_insert _ _ _ _

namespace Schema

variable {schema : Schema}

/-- Every cumulative attribute of the concept is written as a set. -/
def Tidy (schema : Schema) (concept : Concept) : Prop :=
  ∀ name, schema.isCumulative concept.kind name = true →
    ∀ value ∈ concept.attribute? name, value.IsSet

/-- Two descriptions that lie within each other are the same. -/
theorem Within.antisymm {a b : Concept} (hab : schema.Within a b) (hba : schema.Within b a)
    (ha : schema.Tidy a) (hb : schema.Tidy b) : a = b := by
  refine Concept.eq_of_attributes hab.key fun name => ?_
  cases hname : schema.isCumulative a.kind name with
  | false => exact hab.plain name hname
  | true =>
      have hname' := hname
      rw [hab.kind] at hname'
      apply Value.eq_of_contributed (ha name hname) (hb name hname')
      · exact Bool.eq_iff_iff.2 ⟨hab.present name hname, hba.present name hname'⟩
      · intro x
        exact ⟨hab.items name hname x, hba.items name hname' x⟩

/-- A longer list of a cumulative attribute says more. -/
theorem within_setAttribute {concept : Concept} {name : String}
    {items items' : List Value} (hname : schema.isCumulative concept.kind name = true)
    (h : ∀ x ∈ items, x ∈ items') :
    schema.Within (concept.setAttribute name (.list items))
      (concept.setAttribute name (.list items')) := by
  refine ⟨rfl, fun other hother => ?_, fun other _ hsome => ?_, fun other _ x hx => ?_⟩
  · have hne : other ≠ name := fun heq => by
      subst heq
      cases hname.symm.trans hother
    rw [Concept.attribute?_setAttribute, Concept.attribute?_setAttribute, if_neg hne, if_neg hne]
  · rw [Concept.attribute?_setAttribute] at hsome ⊢
    split
    · rfl
    · next hne => rwa [if_neg hne] at hsome
  · rw [Concept.attribute?_setAttribute] at hx ⊢
    split
    · next heq =>
        rw [if_pos heq] at hx
        exact h x hx
    · next hne => rwa [if_neg hne] at hx

end Schema

namespace Store

variable {a b c store next : Store} {concept : Concept} {origin : Origin}

/-! ## What a store says -/

/-- The concept that is stored under a key. -/
def concept? (store : Store) (key : Key) : Option Concept :=
  (store.find? key).map (·.concept)

/-- The stored concepts, in the order of admission. -/
def concepts (store : Store) : List Concept :=
  store.entries.toList.map (·.concept)

theorem mem_concepts : concept ∈ store.concepts ↔
    ∃ entry ∈ store.entries, entry.concept = concept := by
  simp [concepts]

/-- What is stored spans the store. -/
theorem spannedBy_concepts (store : Store) : store.SpannedBy (· ∈ store.concepts) := by
  intro id entry hget
  have hmem : entry.concept ∈ store.concepts :=
    mem_concepts.2 ⟨entry, Array.mem_of_getElem? hget, rfl⟩
  exact ⟨⟨_, hmem, rfl, fun _ _ => rfl⟩, fun _ _ hsome => ⟨_, hmem, rfl, hsome⟩,
    fun _ _ _ hx => ⟨_, hmem, rfl, hx⟩⟩

/-- The stores say the same of every key. -/
structure SameContents (a b : Store) : Prop where
  schema : a.schema = b.schema
  concept? : ∀ key, a.concept? key = b.concept? key

/-- The store `b` says all that the store `a` says. -/
structure Below (a b : Store) : Prop where
  schema : a.schema = b.schema
  represents : ∀ {id : ConceptId} {entry : Entry}, a.get? id = some entry →
    b.Represents entry.concept

namespace WellFormed

theorem tidy (hstore : store.WellFormed) {id : ConceptId} {entry : Entry}
    (hget : store.get? id = some entry) : store.schema.Tidy entry.concept :=
  fun _ hname _ hvalue => hstore.isSet_of_cumulative hget hname hvalue

/-- A store represents what it has stored. -/
theorem represents_entry (hstore : store.WellFormed) {id : ConceptId} {entry : Entry}
    (hget : store.get? id = some entry) : store.Represents entry.concept := by
  refine ⟨entry, ?_, .refl _⟩
  rw [hstore.concept_key hget]
  exact hstore.find?_of_get? hget

theorem concept?_eq_some_iff (hstore : store.WellFormed) {key : Key} :
    store.concept? key = some concept ↔
      ∃ id entry, store.get? id = some entry ∧ entry.key = key ∧ entry.concept = concept := by
  unfold Store.concept?
  rw [Option.map_eq_some_iff]
  constructor
  · rintro ⟨entry, hfind, hconcept⟩
    obtain ⟨hget, hkey⟩ := hstore.find?_eq_some_iff.1 hfind
    exact ⟨entry.id, entry, hget, hkey, hconcept⟩
  · rintro ⟨id, entry, hget, rfl, hconcept⟩
    exact ⟨entry, hstore.find?_of_get? hget, hconcept⟩

/-- What is stored under a key is the stored concept with that key. -/
theorem concept?_eq_some_iff_mem (hstore : store.WellFormed) {key : Key} :
    store.concept? key = some concept ↔ concept ∈ store.concepts ∧ concept.key = key := by
  rw [hstore.concept?_eq_some_iff, mem_concepts]
  constructor
  · rintro ⟨id, entry, hget, rfl, rfl⟩
    exact ⟨⟨entry, Array.mem_of_getElem? hget, rfl⟩, hstore.concept_key hget⟩
  · rintro ⟨⟨entry, hentry, rfl⟩, rfl⟩
    have hget := hstore.get?_of_mem hentry
    exact ⟨entry.id, entry, hget, (hstore.concept_key hget).symm, rfl⟩

theorem key_mem_keys (hstore : store.WellFormed) (hconcept : concept ∈ store.concepts) :
    concept.key ∈ store.keys := by
  obtain ⟨entry, hentry, rfl⟩ := mem_concepts.1 hconcept
  have hget := hstore.get?_of_mem hentry
  rw [hstore.concept_key hget]
  exact hstore.mem_keys.2 ⟨entry, hstore.find?_of_get? hget⟩

/-- What fits a represented key fits the schema. -/
theorem validate_of_represents (hstore : store.WellFormed) (h : store.Represents concept) :
    ∃ kind, store.schema.validate concept = .ok kind := by
  obtain ⟨id, hinsert⟩ := h.insert_eq hstore (.seed 0)
  obtain ⟨kind, hvalid, -⟩ := insert_eq_ok_iff.1 hinsert
  exact ⟨kind, hvalid⟩

/-- No reference is dangling if those of every stored concept lead somewhere. -/
theorem dangling_eq_nil_iff (hstore : store.WellFormed) : store.dangling = [] ↔
    ∀ key concept, store.concept? key = some concept → store.unresolvedRefs concept = [] := by
  unfold dangling
  rw [List.flatMap_eq_nil_iff]
  constructor
  · intro h key concept hconcept
    obtain ⟨id, entry, hget, -, rfl⟩ := hstore.concept?_eq_some_iff.1 hconcept
    have hmem := Array.mem_toList_iff.2 (Array.mem_of_getElem? hget)
    exact List.map_eq_nil_iff.1 (h entry hmem)
  · intro h entry hentry
    rw [List.map_eq_nil_iff]
    apply h entry.key
    have hget := hstore.get?_of_mem (Array.mem_toList_iff.1 hentry)
    exact hstore.concept?_eq_some_iff.2 ⟨entry.id, entry, hget, rfl, rfl⟩

end WellFormed

/-! ## The order of stores -/

namespace Below

theorem refl (hstore : store.WellFormed) : store.Below store :=
  ⟨rfl, hstore.represents_entry⟩

/-- What the lower store represents, the upper one does too. -/
theorem represents_of (h : a.Below b) (ha : a.WellFormed) (hconcept : a.Represents concept) :
    b.Represents concept := by
  obtain ⟨entry, hfind, hwithin⟩ := hconcept
  obtain ⟨hget, -⟩ := ha.find?_eq_some_iff.1 hfind
  obtain ⟨upper, hupper, hwithin'⟩ := h.represents hget
  rw [← h.schema] at hwithin'
  refine ⟨upper, ?_, h.schema ▸ hwithin.trans hwithin'⟩
  rw [hwithin.key]
  exact hupper

theorem trans (hab : a.Below b) (hb : b.WellFormed) (hbc : b.Below c) : a.Below c :=
  ⟨hab.schema.trans hbc.schema, fun hget => hbc.represents_of hb (hab.represents hget)⟩

theorem find? (h : a.Below b) (ha : a.WellFormed) {key : Key} {entry : Entry}
    (hfind : a.find? key = some entry) :
    ∃ upper, b.find? key = some upper ∧ a.schema.Within entry.concept upper.concept := by
  obtain ⟨hget, hkey⟩ := ha.find?_eq_some_iff.1 hfind
  obtain ⟨upper, hupper, hwithin⟩ := h.represents hget
  rw [ha.concept_key hget, hkey] at hupper
  exact ⟨upper, hupper, h.schema ▸ hwithin⟩

theorem resolvable (h : a.Below b) (ha : a.WellFormed) (hb : b.WellFormed) {target : Key}
    (htarget : a.resolvable target = true) : b.resolvable target = true := by
  apply resolvable_of_contains h.schema (fun hcontains => ?_) htarget
  obtain ⟨entry, hentry⟩ := ha.contains_iff.1 hcontains
  obtain ⟨upper, hupper, -⟩ := h.find? ha hentry
  exact hb.contains_iff.2 ⟨upper, hupper⟩

theorem missingTarget? (h : a.Below b) (ha : a.WellFormed) (hb : b.WellFormed)
    (hmissing : a.missingTarget? concept = none) : b.missingTarget? concept = none := by
  rw [missingTarget?_eq_none_iff] at hmissing ⊢
  exact fun target htarget => h.resolvable ha hb (hmissing target htarget)

/-- Stores that lie below each other say the same. -/
theorem antisymm (hab : a.Below b) (hba : b.Below a) (ha : a.WellFormed) (hb : b.WellFormed) :
    a.SameContents b := by
  have hfound : ∀ {key : Key} {entry : Entry}, a.find? key = some entry →
      ∃ other, b.find? key = some other ∧ other.concept = entry.concept := by
    intro key entry hfind
    obtain ⟨other, hother, hwithin⟩ := hab.find? ha hfind
    obtain ⟨again, hagain, hwithin'⟩ := hba.find? hb hother
    obtain rfl : again = entry := Option.some.inj (hagain.symm.trans hfind)
    have htidy := hb.tidy (hb.find?_eq_some_iff.1 hother).1
    rw [← hab.schema] at hwithin' htidy
    exact ⟨other, hother, hwithin'.antisymm hwithin htidy
      (ha.tidy (ha.find?_eq_some_iff.1 hfind).1)⟩
  refine ⟨hab.schema, fun key => ?_⟩
  unfold Store.concept?
  cases hfind : a.find? key with
  | some entry =>
      obtain ⟨other, hother, hconcept⟩ := hfound hfind
      rw [hother, Option.map_some, Option.map_some, hconcept]
  | none =>
      cases hother : b.find? key with
      | none => rfl
      | some other =>
          obtain ⟨entry, hentry, -⟩ := hba.find? hb hother
          cases hfind.symm.trans hentry

end Below

theorem Grows.below (hgrows : Grows store next) (hstore : store.WellFormed)
    (hnext : next.WellFormed) : store.Below next :=
  ⟨hgrows.schema.symm, fun hget =>
    (hstore.represents_entry hget).grows hgrows hstore hnext⟩

/-! ## Admission below -/

theorem WellFormed.size_le_capacity (hstore : store.WellFormed) : store.size ≤ capacity := by
  by_contra hlt
  have hindex : store.size - 1 < store.size := by
    have := Nat.not_le.1 hlt
    omega
  have hid := hstore.index_id (Array.getElem?_eq_getElem hindex)
  have hbound := store.entries[store.size - 1].id.index_lt
  omega

/-- A store that lies below another has room for a new key of the other. -/
theorem Below.size_lt (h : a.Below b) (ha : a.WellFormed) (hb : b.WellFormed)
    (hnew : a.find? concept.key = none) (hconcept : b.Represents concept) :
    a.size < b.size := by
  have hnodup : (concept.key :: a.entries.toList.map (·.key)).Nodup := by
    refine List.nodup_cons.2 ⟨fun hmem => ?_, ha.nodup_keys⟩
    obtain ⟨entry, hentry, hkey⟩ := List.mem_map.1 hmem
    have hfind := ha.find?_of_get? (ha.get?_of_mem (Array.mem_toList_iff.1 hentry))
    rw [hkey, hnew] at hfind
    cases hfind
  have hlisted : ∀ {key : Key} {entry : Entry}, b.find? key = some entry →
      key ∈ b.entries.toList.map (·.key) := by
    intro key entry hfind
    obtain ⟨hget, hkey⟩ := hb.find?_eq_some_iff.1 hfind
    exact List.mem_map.2 ⟨entry, Array.mem_toList_iff.2 (Array.mem_of_getElem? hget), hkey⟩
  have hsubset : concept.key :: a.entries.toList.map (·.key) ⊆ b.entries.toList.map (·.key) := by
    intro key hkey
    rcases List.mem_cons.1 hkey with rfl | hkey
    · obtain ⟨entry, hfind, -⟩ := hconcept
      exact hlisted hfind
    · obtain ⟨entry, hentry, rfl⟩ := List.mem_map.1 hkey
      obtain ⟨upper, hupper, -⟩ :=
        h.find? ha (ha.find?_of_get? (ha.get?_of_mem (Array.mem_toList_iff.1 hentry)))
      exact hlisted hupper
  have hle := (List.subperm_of_subset hnodup hsubset).length_le
  simp only [List.length_cons, List.length_map, Array.length_toList] at hle
  exact hle

/-- What admission of a represented concept leaves behind still lies below. -/
theorem Below.of_insert (h : a.Below b) (ha : a.WellFormed) (hconcept : b.Represents concept)
    {admission : Admission} (hinsert : a.insert concept origin = .ok (admission, next)) :
    next.Below b := by
  have hnext := ha.insert hinsert
  have hschema : next.schema = a.schema := (ha.grows_insert hinsert).schema
  have hspanned : a.SpannedBy b.Represents := by
    intro id entry hget
    have hrepresents := h.represents hget
    exact
      { plain := ⟨entry.concept, hrepresents, rfl, fun _ _ => rfl⟩
        present := fun _ _ hsome => ⟨entry.concept, hrepresents, rfl, hsome⟩
        items := fun _ _ _ hx => ⟨entry.concept, hrepresents, rfl, hx⟩ }
  have hspanned' := hspanned.insert ha hconcept hinsert
  refine ⟨hschema.trans h.schema, fun {id entry} hget => ?_⟩
  have hentry := hspanned' id entry hget
  -- All that is said of the key comes from concepts within the one entry above.
  obtain ⟨source, ⟨upper, hupper, hwithin⟩, hkey, hplain⟩ := hentry.plain
  rw [hkey] at hupper
  have hsame : ∀ {other : Concept}, b.Represents other → other.key = entry.concept.key →
      b.schema.Within other upper.concept := by
    rintro other ⟨found, hfound, hother⟩ hkey'
    rw [hkey', hupper] at hfound
    obtain rfl := Option.some.inj hfound
    exact hother
  have hkind : ∀ {other : Concept}, other.key = entry.concept.key →
      other.kind = entry.concept.kind := fun hkey' => congrArg Key.kind hkey'
  rw [hschema, h.schema] at hentry hplain
  refine ⟨upper, hupper, ?_⟩
  exact
    { key := hkey.symm.trans hwithin.key
      plain := fun name hname =>
        (hplain name hname).symm.trans (hwithin.plain name (hkind hkey ▸ hname))
      present := by
        intro name hname hsome
        obtain ⟨other, hother, hkey', hsome'⟩ := hentry.present name hname hsome
        exact (hsame hother hkey').present name (hkind hkey' ▸ hname) hsome'
      items := by
        intro name hname x hx
        obtain ⟨other, hother, hkey', hx'⟩ := hentry.items name hname x hx
        exact (hsame hother hkey').items name (hkind hkey' ▸ hname) x hx' }

/-- A concept that is represented above can be admitted below, once its key
references lead somewhere there. -/
theorem Below.insert (h : a.Below b) (ha : a.WellFormed) (hb : b.WellFormed)
    (hconcept : b.Represents concept) (hmissing : a.missingTarget? concept = none)
    (origin : Origin) :
    ∃ admission next, a.insert concept origin = .ok (admission, next) ∧ next.Below b := by
  obtain ⟨kind, hvalid⟩ := hb.validate_of_represents hconcept
  rw [← h.schema] at hvalid
  have hinsert : ∃ admission next, a.insert concept origin = .ok (admission, next) := by
    cases hfind : a.find? concept.key with
    | none =>
        have hroom : a.size < capacity :=
          (h.size_lt ha hb hfind hconcept).trans_le hb.size_le_capacity
        exact ⟨_, _, insert_eq_ok_iff.2 ⟨kind, hvalid, hmissing, .admitted (dif_pos hroom) hfind⟩⟩
    | some entry =>
        obtain ⟨upper, hupper, hwithin⟩ := h.find? ha hfind
        obtain ⟨found, hfound, hwithin'⟩ := hconcept
        obtain rfl : found = upper := Option.some.inj (hfound.symm.trans hupper)
        rw [← h.schema] at hwithin'
        have hagree : kind.disagreement? entry.concept.payload concept.payload = none := by
          rw [KindDef.disagreement?_eq_none_iff]
          intro name hname
          have hcumulative := (Schema.isCumulative_of_validate hvalid name).trans hname
          have hkind : entry.concept.kind = concept.kind := hwithin.kind.trans hwithin'.kind.symm
          exact (hwithin.plain name (hkind ▸ hcumulative)).trans
            (hwithin'.plain name hcumulative).symm
        by_cases hsame : kind.merge entry.concept.payload concept.payload = entry.concept.payload
        · exact ⟨_, _, insert_eq_ok_iff.2
            ⟨kind, hvalid, hmissing, .alreadyPresent hfind hagree hsame⟩⟩
        · exact ⟨_, _, insert_eq_ok_iff.2 ⟨kind, hvalid, hmissing, .merged hfind hagree hsame⟩⟩
  obtain ⟨admission, next, hinsert⟩ := hinsert
  exact ⟨admission, next, hinsert, h.of_insert ha hconcept hinsert⟩

/-! ## The same contents -/

namespace SameContents

theorem refl (store : Store) : SameContents store store :=
  ⟨rfl, fun _ => rfl⟩

theorem symm (h : SameContents a b) : SameContents b a :=
  ⟨h.schema.symm, fun key => (h.concept? key).symm⟩

/-- Stores over one schema that hold the same set of concepts have the same contents. -/
theorem of_concepts (ha : a.WellFormed) (hb : b.WellFormed) (hschema : a.schema = b.schema)
    (hconcepts : ∀ concept, concept ∈ a.concepts ↔ concept ∈ b.concepts) : SameContents a b := by
  refine ⟨hschema, fun key => Option.ext fun concept => ?_⟩
  rw [ha.concept?_eq_some_iff_mem, hb.concept?_eq_some_iff_mem, hconcepts]

theorem find? (h : SameContents a b) {key : Key} {entry : Entry}
    (hfind : a.find? key = some entry) :
    ∃ other, b.find? key = some other ∧ other.concept = entry.concept := by
  have hconcept := h.concept? key
  unfold Store.concept? at hconcept
  rw [hfind] at hconcept
  exact Option.map_eq_some_iff.1 hconcept.symm

/-- Concepts with one key are the same, whatever their identifiers. -/
theorem exists_get? (h : SameContents a b) (ha : a.WellFormed) (hb : b.WellFormed)
    {id id' : ConceptId} (hkey : a.keyOf? id = b.keyOf? id') {entry : Entry}
    (hentry : a.get? id = some entry) :
    ∃ other, b.get? id' = some other ∧ other.concept = entry.concept := by
  obtain ⟨found, hfound, hconcept⟩ := h.find? (ha.find?_of_get? hentry)
  have hsome : b.keyOf? id' = some entry.key := by rw [← hkey, keyOf?, hentry, Option.map_some]
  obtain ⟨other, hother, hsame⟩ := Option.map_eq_some_iff.1 hsome
  rw [← hsame, hb.find?_of_get? hother] at hfound
  rw [← Option.some.inj hfound] at hconcept
  exact ⟨other, hother, hconcept⟩

theorem below (h : SameContents a b) (ha : a.WellFormed) : a.Below b := by
  refine ⟨h.schema, fun {id entry} hget => ?_⟩
  obtain ⟨other, hother, hconcept⟩ := h.find? (ha.find?_of_get? hget)
  refine ⟨other, ?_, hconcept ▸ .refl _⟩
  rw [ha.concept_key hget]
  exact hother

theorem contains (h : SameContents a b) (ha : a.WellFormed) (hb : b.WellFormed) (key : Key) :
    a.contains key = b.contains key := by
  rw [Bool.eq_iff_iff, ha.contains_iff, hb.contains_iff]
  constructor
  · rintro ⟨entry, hfind⟩
    obtain ⟨other, hother, -⟩ := h.find? hfind
    exact ⟨other, hother⟩
  · rintro ⟨entry, hfind⟩
    obtain ⟨other, hother, -⟩ := h.symm.find? hfind
    exact ⟨other, hother⟩

theorem resolvable (h : SameContents a b) (ha : a.WellFormed) (hb : b.WellFormed) (key : Key) :
    a.resolvable key = b.resolvable key := by
  unfold Store.resolvable
  rw [h.contains ha hb, h.schema]

theorem missingTarget? (h : SameContents a b) (ha : a.WellFormed) (hb : b.WellFormed)
    (concept : Concept) : a.missingTarget? concept = b.missingTarget? concept := by
  unfold Store.missingTarget?
  congr 1
  funext target
  rw [h.resolvable ha hb]

theorem unresolvedRefs (h : SameContents a b) (ha : a.WellFormed) (hb : b.WellFormed)
    (concept : Concept) : a.unresolvedRefs concept = b.unresolvedRefs concept := by
  unfold Store.unresolvedRefs
  congr 1
  funext target
  rw [h.resolvable ha hb]

theorem dangling_eq_nil (h : SameContents a b) (ha : a.WellFormed) (hb : b.WellFormed)
    (hdangling : a.dangling = []) : b.dangling = [] := by
  rw [ha.dangling_eq_nil_iff] at hdangling
  rw [hb.dangling_eq_nil_iff]
  intro key concept hconcept
  rw [← h.concept?] at hconcept
  rw [← h.unresolvedRefs ha hb]
  exact hdangling key concept hconcept

end SameContents

end Store

end ConceptExpansion
