/-
# The stored concepts as seeds

When the concepts of a store are offered as seeds, in whatever order, each of them is
one that the store represents, so nothing can go wrong on the way: seeds have no depth,
and there is no conflict with what the store says. None is left waiting in the end
either. The key references of a concept lead to smaller keys that are stored too, so by
induction on keys all of them are admitted. The seeds rebuild the contents of the store
without a merge.
-/

import ConceptExpansion.Proofs.Expansion.Conservation
import ConceptExpansion.Proofs.Run.Confluence
import ConceptExpansion.Proofs.Run.Quiescence
import ConceptExpansion.Proofs.Store.Resolution

namespace ConceptExpansion

namespace Run

variable {registry : Registry} {settings : Settings} {seeds : List Concept}
  {target : Store} {run started : Run}

/-! ## Offers within the depth limit -/

/-- If only the depth of an offer can make taking it in fail, offers within the limit
are all taken in. -/
theorem Throughout.of_shallow {P : Run → List Offer → Prop}
    (h : Throughout settings (TooDeep settings) P) :
    Throughout settings (fun _ => False) fun run rest =>
      P run rest ∧ ∀ offer ∈ run.deferred ++ rest, offer.depth ≤ settings.maxDepth where
  reject := by
    rintro run offer rest cause ⟨hrun, -⟩ hinvalid
    obtain ⟨chain, hchain⟩ := h.reject hrun hinvalid
    unfold Offer.rejection at hchain
    split at hchain <;> cases hchain
  defer := by
    rintro run offer rest missing ⟨hrun, hshallow⟩ hmissing deferrals
    refine ⟨h.defer hrun hmissing deferrals, fun other hother => hshallow other ?_⟩
    rwa [List.append_assoc] at hother
  place := by
    rintro run offer rest ⟨hrun, hshallow⟩ hmissing
    have hplaced := h.place hrun hmissing
    have hdepth := hshallow offer (List.mem_append_right _ List.mem_cons_self)
    rw [place_eq] at hplaced ⊢
    cases hinsert : run.store.insert offer.concept offer.origin with
    | error cause =>
        rw [hinsert] at hplaced
        obtain ⟨chain, hchain⟩ := hplaced
        cases cause <;> cases hchain
    | ok answer =>
        rw [hinsert] at hplaced
        dsimp only at hplaced ⊢
        have hnot : ¬ (answer.1.isNew = true ∧ settings.maxDepth < offer.depth) :=
          fun hdeep => absurd hdepth (Nat.not_le.2 hdeep.2)
        rw [if_neg hnot] at hplaced ⊢
        refine ⟨hplaced, fun other hother => hshallow other ?_⟩
        rw [record_deferred] at hother
        exact ((List.sublist_cons_self _ _).append_left _).subset hother
  pass := by
    rintro run ⟨hrun, hshallow⟩
    refine ⟨h.pass hrun, fun other hother => hshallow other ?_⟩
    exact List.mem_append_left _ hother

/-! ## The concepts of a store -/

/-- The seeds are the concepts of the store, in some order. -/
def Reseeds (target : Store) (seeds : List Concept) : Prop :=
  seeds.Perm (target.entries.toList.map (·.concept))

/-- What the seeds of a store lead to: its contents, with nothing left waiting and
without a merge. -/
structure Rebuilt (target : Store) (started : Run) : Prop where
  contents : target.SameContents started.store
  deferred : started.deferred = []
  merges : started.stats.merges = 0

namespace Reseeds

theorem mem_iff (h : Reseeds target seeds) {concept : Concept} :
    concept ∈ seeds ↔ ∃ entry ∈ target.entries, entry.concept = concept := by
  rw [List.Perm.mem_iff h, List.mem_map]
  simp only [Array.mem_toList_iff]

theorem length_eq (h : Reseeds target seeds) : seeds.length = target.size := by
  rw [List.Perm.length_eq h, List.length_map, Array.length_toList]
  rfl

/-- The store represents all that the seeds offer. -/
theorem represents (h : Reseeds target seeds) (htarget : target.WellFormed) :
    ∀ concept ∈ Offer.concepts (Offer.ofSeeds seeds), target.Represents concept := by
  intro concept hconcept
  obtain ⟨offer, hoffer, rfl⟩ := List.mem_map.1 hconcept
  obtain ⟨position, seed, hposition, rfl⟩ := mem_ofSeeds.1 hoffer
  obtain ⟨entry, hentry, hseed⟩ := h.mem_iff.1 (List.mem_of_getElem? hposition)
  rw [← hseed]
  exact htarget.represents_entry (htarget.get?_of_mem hentry)

theorem gathers (h : Reseeds target seeds) (htarget : target.WellFormed) :
    target.Gathers (Offer.concepts (Offer.ofSeeds seeds)) :=
  ⟨fun concept hconcept => htarget.validate_of_represents (h.represents htarget concept hconcept),
    fun concept hconcept _ => h.represents htarget concept hconcept⟩

/-- The seeds are taken in without a failure, and the store stays below the one that
they come from. -/
theorem exists_start (h : Reseeds target seeds) (htarget : target.WellFormed)
    (hschema : target.schema = registry.schema) (settings : Settings) :
    ∃ started, Run.start registry settings seeds = .ok started ∧
      started.store.Below target ∧
      ∀ offer ∈ started.deferred, target.Represents offer.concept := by
  have hempty : (beforeSeeds registry seeds.length).store.Below target :=
    ⟨hschema.symm, fun hget => by cases hget⟩
  have hshallow : ∀ offer ∈ Offer.ofSeeds seeds, offer.depth ≤ settings.maxDepth := by
    intro offer hoffer
    obtain ⟨position, seed, -, rfl⟩ := mem_ofSeeds.1 hoffer
    exact Nat.zero_le _
  have hthroughout := (throughout_approaches settings htarget (h.gathers htarget)).of_shallow
  have hends : Ends _ _ (Run.start registry settings seeds) :=
    hthroughout.start ⟨approaches_of_below (Store.wellFormed_empty _) hempty, hshallow⟩
  cases hstart : Run.start registry settings seeds with
  | error error => exact (hends.of_error hstart).elim
  | ok started =>
      obtain ⟨happroaches, -⟩ := hends.of_ok hstart
      refine ⟨started, rfl, happroaches.below, fun offer hoffer => ?_⟩
      apply h.represents htarget
      exact happroaches.subset (List.mem_map_of_mem (List.mem_append_left [] hoffer))

/-- The seeds bring back every concept of the store. -/
theorem represents_start (h : Reseeds target seeds) (htarget : target.WellFormed)
    (hstart : Run.start registry settings seeds = .ok started)
    (hbelow : started.store.Below target) {entry : Entry} (hentry : entry ∈ target.entries) :
    started.store.Represents entry.concept := by
  have haccounts := accounts_of_start hstart
  -- A key reference leads to a smaller key, which has been brought back already.
  induction hsize : sizeOf entry.key using Nat.strong_induction_on generalizing entry with
  | _ size ih =>
      have hget := htarget.get?_of_mem hentry
      rcases haccounts.offered _ (h.mem_iff.2 ⟨entry, hentry, rfl⟩) with
        hrepresents | ⟨offer, hoffer, hconcept⟩
      · exact hrepresents
      · obtain ⟨offered, -, hretry⟩ := start_ok hstart
        refine absurd ?_ (hconcept ▸ missing_of_retry hretry offer hoffer)
        rw [Store.missingTarget?_eq_none_iff]
        intro reference hreference
        rw [Concept.keyRefs_eq, htarget.concept_key hget, Key.mem_refs_iff] at hreference
        have hresolvable := htarget.resolvable_of_mentions hget hreference
        have hlt := hreference.sizeOf_lt
        apply Store.resolvable_of_contains hbelow.schema.symm (fun hcontains => ?_) hresolvable
        obtain ⟨other, hother, rfl⟩ := htarget.contains_iff_mem.1 hcontains
        obtain ⟨found, hfound, -⟩ := ih _ (hsize ▸ hlt) hother rfl
        rw [htarget.concept_key_of_mem hother] at hfound
        exact haccounts.wellFormed.contains_iff.2 ⟨found, hfound⟩

/-- The concepts of a store, offered as seeds, rebuild its contents. -/
theorem rebuilds (h : Reseeds target seeds) (htarget : target.WellFormed)
    (hschema : target.schema = registry.schema) (settings : Settings) :
    ∃ started, Run.start registry settings seeds = .ok started ∧ Rebuilt target started := by
  obtain ⟨started, hstart, hbelow, hwaiting⟩ := h.exists_start htarget hschema settings
  have hwellFormed := (accounts_of_start hstart).wellFormed
  have habove : target.Below started.store :=
    ⟨hbelow.schema.symm, fun hget =>
      h.represents_start htarget hstart hbelow (Array.mem_of_getElem? hget)⟩
  have hcontents := habove.antisymm hbelow htarget hwellFormed
  have hdeferred : started.deferred = [] := by
    obtain ⟨offered, -, hretry⟩ := start_ok hstart
    rw [List.eq_nil_iff_forall_not_mem]
    intro offer hoffer
    have hrepresents := habove.represents_of htarget (hwaiting offer hoffer)
    exact missing_of_retry hretry offer hoffer (hrepresents.missingTarget? hwellFormed)
  refine ⟨started, hstart, hcontents, hdeferred, ?_⟩
  have haccounted := accounted_of_start hstart
  rw [h.length_eq, hcontents.size htarget hwellFormed] at haccounted
  unfold accounted at haccounted
  omega

end Reseeds

end Run

end ConceptExpansion
