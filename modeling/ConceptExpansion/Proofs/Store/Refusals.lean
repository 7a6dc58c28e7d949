/-
# Why a store refuses a concept

A concept is refused for one of four reasons, and each error says truly which: the
concept does not fit the schema, a key reference of it leads nowhere, it contradicts the
stored description of its key, or its key is new and the store is full. A contradiction
is reported with both descriptions and with the first name, in the order of names, of a
plain attribute on which they differ.
-/

import ConceptExpansion.Proofs.Store.Growth

namespace ConceptExpansion

namespace KindDef

variable {kind : KindDef} {existing incoming : Attributes} {name : String}

/-- The attribute is the first of the plain ones on which the two payloads differ. -/
structure FirstDifference (kind : KindDef) (existing incoming : Attributes) (name : String) :
    Prop where
  plain : kind.isCumulative name = false
  differs : existing.get? name ≠ incoming.get? name
  first : ∀ smaller < name, kind.isCumulative smaller = false →
    existing.get? smaller = incoming.get? smaller

/-- No two attributes are the first one. -/
theorem FirstDifference.unique {other : String} (h : kind.FirstDifference existing incoming name)
    (h' : kind.FirstDifference existing incoming other) : name = other := by
  rcases lt_trichotomy name other with hlt | heq | hlt
  · exact absurd (h'.first name hlt h.plain) h.differs
  · exact heq
  · exact absurd (h.first other hlt h'.plain) h'.differs

theorem firstDifference_of_disagreement? (h : kind.disagreement? existing incoming = some name) :
    kind.FirstDifference existing incoming name := by
  obtain ⟨hname, before, after, hsplit, hbefore⟩ := List.find?_eq_some_iff_append.1 h
  simp only [Bool.and_eq_true, Bool.not_eq_true', bne_iff_ne] at hname
  refine ⟨hname.1, hname.2, fun smaller hlt hplain => ?_⟩
  by_contra hdiffers
  have hmem : smaller ∈ attributesOfBoth existing incoming := by
    rw [mem_attributesOfBoth]
    by_contra hnone
    simp only [not_or, Option.not_isSome_iff_eq_none] at hnone
    exact hdiffers (hnone.1.trans hnone.2.symm)
  have hascend : (attributesOfBoth existing incoming).Pairwise (· < ·) := NameMap.ascending_names _
  rw [hsplit] at hmem hascend
  -- The search has passed over every smaller name.
  rcases List.mem_append.1 hmem with hearlier | hlater
  · simpa [hplain, hdiffers] using hbefore smaller hearlier
  · rcases List.mem_cons.1 hlater with rfl | hlater
    · exact lt_irrefl _ hlt
    · exact lt_asymm hlt ((List.pairwise_cons.1 (List.pairwise_append.1 hascend).2.1).1 _ hlater)

theorem disagreement?_eq_some_iff : kind.disagreement? existing incoming = some name ↔
    kind.FirstDifference existing incoming name := by
  refine ⟨firstDifference_of_disagreement?, fun h => ?_⟩
  cases hsome : kind.disagreement? existing incoming with
  | none =>
      have hnone := (kind.disagreement?_eq_none_iff existing incoming).1 hsome
      exact absurd (hnone name h.plain) h.differs
  | some other => rw [(firstDifference_of_disagreement? hsome).unique h]

end KindDef

namespace Store

variable {store : Store} {concept : Concept} {origin : Origin} {error : StoreError}

theorem ofIndex?_eq_none_iff {index : Nat} :
    ConceptId.ofIndex? index = none ↔ capacity ≤ index := by
  unfold ConceptId.ofIndex?
  split <;> simp <;> omega

/-- The error with which a store refuses a concept of this origin. -/
inductive Refusal (store : Store) (concept : Concept) (origin : Origin) : StoreError → Prop
  | invalid {cause : SchemaError} (hvalid : store.schema.validate concept = .error cause) :
      Refusal store concept origin (.invalid cause)
  | unresolved {kind : KindDef} {target : Key} (hvalid : store.schema.validate concept = .ok kind)
      (hmissing : store.missingTarget? concept = some target) :
      Refusal store concept origin (.unresolved concept.key target)
  | conflict {kind : KindDef} {entry : Entry} {name : String}
      (hvalid : store.schema.validate concept = .ok kind)
      (hmissing : store.missingTarget? concept = none)
      (hfind : store.find? concept.key = some entry)
      (hname : kind.disagreement? entry.concept.payload concept.payload = some name) :
      Refusal store concept origin (.conflict
        { key := entry.key, attributeName := name
          existing := entry.concept, existingOrigin := entry.origin
          incoming := concept, incomingOrigin := origin })
  | full {kind : KindDef} (hvalid : store.schema.validate concept = .ok kind)
      (hmissing : store.missingTarget? concept = none)
      (hfind : store.find? concept.key = none) (hsize : capacity ≤ store.size) :
      Refusal store concept origin (.capacity concept.key capacity)

theorem refusal_of_insert (h : store.insert concept origin = .error error) :
    store.Refusal concept origin error := by
  unfold insert at h
  split at h
  · next hvalid =>
      cases h
      exact .invalid hvalid
  · next kind hvalid =>
      split at h
      · next hmissing =>
          cases h
          exact .unresolved hvalid hmissing
      · next hmissing =>
          split at h
          · next entry hfind =>
              unfold reinsert at h
              split at h
              · next name hname =>
                  cases h
                  exact .conflict hvalid hmissing hfind hname
              · dsimp only at h
                split at h <;> cases h
          · next hfind =>
              unfold insertNew at h
              split at h
              · next hfull =>
                  cases h
                  exact .full hvalid hmissing hfind (ofIndex?_eq_none_iff.1 hfull)
              · cases h

end Store

end ConceptExpansion
