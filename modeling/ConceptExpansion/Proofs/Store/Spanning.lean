/-
# Stores that are spanned by a set of concepts

A stored concept is put together from what was admitted: one admitted concept
with its key has all its attributes apart from the cumulative ones, and every
cumulative attribute and every item of one was admitted under that key. A set of
concepts spans a store if it accounts in this way for all that is stored, and
goes on doing so while concepts of the set are admitted.
-/

import ConceptExpansion.Proofs.Store.Growth

namespace ConceptExpansion

variable {concepts : Concept → Prop}

/-! ## Spanned concepts -/

namespace Schema

variable {schema : Schema}

/-- All that the concept says is said by concepts of the set with its key. -/
structure SpannedBy (schema : Schema) (concepts : Concept → Prop) (concept : Concept) :
    Prop where
  plain : ∃ source, concepts source ∧ source.key = concept.key ∧
    ∀ name, schema.isCumulative concept.kind name = false →
      source.attribute? name = concept.attribute? name
  present : ∀ name, schema.isCumulative concept.kind name = true →
    (concept.attribute? name).isSome →
      ∃ source, concepts source ∧ source.key = concept.key ∧ (source.attribute? name).isSome
  items : ∀ name, schema.isCumulative concept.kind name = true →
    ∀ x ∈ Value.contributed (concept.attribute? name),
      ∃ source, concepts source ∧ source.key = concept.key ∧
        x ∈ Value.contributed (source.attribute? name)

/-- What spans a concept may be more than it takes. -/
theorem SpannedBy.imp {concepts' : Concept → Prop} {concept : Concept}
    (h : schema.SpannedBy concepts concept)
    (himp : ∀ {concept}, concepts concept → concepts' concept) :
    schema.SpannedBy concepts' concept where
  plain := by
    obtain ⟨source, hsource, hplain⟩ := h.plain
    exact ⟨source, himp hsource, hplain⟩
  present name hname hsome := by
    obtain ⟨source, hsource, hpresent⟩ := h.present name hname hsome
    exact ⟨source, himp hsource, hpresent⟩
  items name hname x hx := by
    obtain ⟨source, hsource, hitem⟩ := h.items name hname x hx
    exact ⟨source, himp hsource, hitem⟩

theorem spannedBy_normalize {concept : Concept} {kind : KindDef} (hconcept : concepts concept)
    (h : schema.validate concept = .ok kind) :
    schema.SpannedBy concepts (concept.setPayload (kind.normalize concept.payload)) := by
  have hplain : ∀ name, kind.isCumulative name = false →
      (concept.setPayload (kind.normalize concept.payload)).attribute? name =
        concept.attribute? name := fun name hname =>
    kind.get?_normalize_of_not_cumulative concept.payload hname
  have hcumulative : ∀ name, kind.isCumulative name = true →
      (concept.setPayload (kind.normalize concept.payload)).attribute? name =
        Value.unite? none (concept.attribute? name) := fun name hname =>
    kind.get?_normalize_of_cumulative concept.payload hname
  exact
    { plain := by
        refine ⟨concept, hconcept, rfl, fun name hname => ?_⟩
        exact (hplain name ((isCumulative_of_validate h name).symm.trans hname)).symm
      present := by
        intro name hname hsome
        rw [hcumulative name ((isCumulative_of_validate h name).symm.trans hname),
          Value.isSome_unite?, Option.isSome_none, Bool.false_or] at hsome
        exact ⟨concept, hconcept, rfl, hsome⟩
      items := by
        intro name hname x hx
        rw [hcumulative name ((isCumulative_of_validate h name).symm.trans hname),
          Value.mem_contributed_unite?] at hx
        exact ⟨concept, hconcept, rfl, hx.resolve_left List.not_mem_nil⟩ }

theorem spannedBy_merge {existing incoming : Concept} {kind : KindDef}
    (hexisting : schema.SpannedBy concepts existing) (hincoming : concepts incoming)
    (hkey : incoming.key = existing.key) (h : schema.validate existing = .ok kind) :
    schema.SpannedBy concepts
      (existing.setPayload (kind.merge existing.payload incoming.payload)) := by
  have hplain : ∀ name, kind.isCumulative name = false →
      (existing.setPayload (kind.merge existing.payload incoming.payload)).attribute? name =
        existing.attribute? name := fun name hname =>
    kind.get?_merge_of_not_cumulative existing.payload incoming.payload hname
  have hcumulative : ∀ name, kind.isCumulative name = true →
      (existing.setPayload (kind.merge existing.payload incoming.payload)).attribute? name =
        Value.unite? (existing.attribute? name) (incoming.attribute? name) := fun name hname =>
    kind.get?_merge_of_cumulative existing.payload incoming.payload hname
  exact
    { plain := by
        obtain ⟨source, hsource, hkey, hagree⟩ := hexisting.plain
        refine ⟨source, hsource, hkey, fun name hname => (hagree name hname).trans ?_⟩
        exact (hplain name ((isCumulative_of_validate h name).symm.trans hname)).symm
      present := by
        intro name hname hsome
        rw [hcumulative name ((isCumulative_of_validate h name).symm.trans hname),
          Value.isSome_unite?, Bool.or_eq_true] at hsome
        rcases hsome with hsome | hsome
        · exact hexisting.present name hname hsome
        · exact ⟨incoming, hincoming, hkey, hsome⟩
      items := by
        intro name hname x hx
        rw [hcumulative name ((isCumulative_of_validate h name).symm.trans hname),
          Value.mem_contributed_unite?] at hx
        rcases hx with hx | hx
        · exact hexisting.items name hname x hx
        · exact ⟨incoming, hincoming, hkey, hx⟩ }

end Schema

/-! ## Spanned stores -/

namespace Store

/-- The set accounts for every stored concept. -/
def SpannedBy (concepts : Concept → Prop) (store : Store) : Prop :=
  ∀ (id : ConceptId) (entry : Entry), store.get? id = some entry →
    store.schema.SpannedBy concepts entry.concept

theorem SpannedBy.imp {concepts' : Concept → Prop} {store : Store} (h : store.SpannedBy concepts)
    (himp : ∀ {concept}, concepts concept → concepts' concept) : store.SpannedBy concepts' :=
  fun id entry hget => (h id entry hget).imp himp

/-- Admitting a concept of the set keeps a store spanned. -/
theorem SpannedBy.insert {store next : Store} {concept : Concept} {origin : Origin}
    {admission : Admission} (hspanned : store.SpannedBy concepts) (hstore : store.WellFormed)
    (hconcept : concepts concept)
    (h : store.insert concept origin = .ok (admission, next)) : next.SpannedBy concepts := by
  obtain ⟨kind, hvalid, -, hinsertion⟩ := insert_eq_ok_iff.1 h
  cases hinsertion with
  | admitted hid hnew =>
      intro id entry hget
      rw [get?_push] at hget
      split at hget
      · rw [← Option.some.inj hget]
        exact Schema.spannedBy_normalize hconcept hvalid
      · exact hspanned id entry hget
  | alreadyPresent => exact hspanned
  | @merged existing hfind =>
      obtain ⟨hexisting, hkey⟩ := hstore.find?_eq_some_iff.1 hfind
      intro id entry hget
      obtain rfl | hget := get?_setPayload_cases hexisting hget
      · have hkey' : concept.key = existing.concept.key :=
          hkey.symm.trans (hstore.concept_key hexisting).symm
        exact Schema.spannedBy_merge (hspanned _ _ hexisting) hconcept hkey'
          (hstore.validate_entry hvalid hfind)
      · exact hspanned id entry hget

section Keys

variable {concepts : Concept → Prop} {store : Store}

/-- Every stored key is the key of a concept of the set. -/
theorem SpannedBy.exists_key (hspanned : store.SpannedBy concepts) (hstore : store.WellFormed)
    {entry : Entry} (hentry : entry ∈ store.entries) :
    ∃ source, concepts source ∧ source.key = entry.key := by
  have hget := hstore.get?_of_mem hentry
  obtain ⟨source, hsource, hkey, -⟩ := (hspanned _ _ hget).plain
  exact ⟨source, hsource, hkey.trans (hstore.concept_key hget)⟩

theorem SpannedBy.exists_of_mem_keys (hspanned : store.SpannedBy concepts)
    (hstore : store.WellFormed) {key : Key} (hkey : key ∈ store.keys) :
    ∃ source, concepts source ∧ source.key = key := by
  obtain ⟨entry, hfind⟩ := hstore.mem_keys.1 hkey
  obtain ⟨hget, rfl⟩ := hstore.find?_eq_some_iff.1 hfind
  exact hspanned.exists_key hstore (Array.mem_of_getElem? hget)

end Keys

end Store

end ConceptExpansion
