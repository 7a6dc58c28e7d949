/-
# Copies of seeds change nothing

Seeds are offered by ascending key, so a further copy of a seed is offered among
the seeds with its key, and that may be before or after other descriptions of the
concept. Descriptions of one key may be taken in in any order, so the copy may as
well be offered right after the original, where it adds nothing. Hence an
expansion that succeeds still succeeds when copies of its seeds are put in
anywhere, with the same model in the same number of waves, rule invocations and
rounds.
-/

import ConceptExpansion.Proofs.Expansion.SeedOrder
import ConceptExpansion.Proofs.Run.Repetition

namespace ConceptExpansion

/-! ## Models that differ in copies of seeds only -/

namespace Model

/-- The models hold the same concepts under the same identifiers, from the same
origins up to the positions of seeds, in the same order and with the same
exported text, and they took the same waves, rule invocations and rounds. -/
structure Echoes (a b : Model) : Prop where
  store : a.store.Alike b.store
  order : a.order = b.order
  exported : a.exported = b.exported
  waves : a.stats.waves = b.stats.waves
  ruleInvocations : a.stats.ruleInvocations = b.stats.ruleInvocations
  reviewRounds : a.stats.reviewRounds = b.stats.reviewRounds

theorem Echoes.refl (model : Model) : model.Echoes model :=
  ⟨.refl _, rfl, rfl, rfl, rfl, rfl⟩

theorem Echoes.trans {a b c : Model} (hab : a.Echoes b) (hbc : b.Echoes c) : a.Echoes c where
  store := Eq.trans hab.store hbc.store
  order := hab.order.trans hbc.order
  exported := hab.exported.trans hbc.exported
  waves := hab.waves.trans hbc.waves
  ruleInvocations := hab.ruleInvocations.trans hbc.ruleInvocations
  reviewRounds := hab.reviewRounds.trans hbc.reviewRounds

theorem Alike.echoes {a b : Model} (h : a.Alike b) : a.Echoes b := by
  have hwaves := congrArg Stats.waves h.stats
  have hinvocations := congrArg Stats.ruleInvocations h.stats
  have hrounds := congrArg Stats.reviewRounds h.stats
  exact ⟨h.store, h.order, h.exported, hwaves, hinvocations, hrounds⟩

end Model

/-! ## Offers and where they lead -/

namespace Run

variable {registry : Registry} {settings : Settings} {run run' : Run} {count count' : Nat}
  {offers offers' : List Offer}

/-- What comes of a run over this many seeds that begins by taking in these
offers. -/
def outcome (registry : Registry) (settings : Settings) (count : Nat) (offers : List Offer) :
    Except ExpansionError Model := do
  let started ← (beforeSeeds registry count).intake settings offers
  let settled ← started.toFixpoint registry settings
  settled.finish

theorem expand_eq_outcome (registry : Registry) (settings : Settings) (seeds : List Concept) :
    registry.expand settings seeds =
      outcome registry settings seeds.length (Offer.ofSeeds seeds) := rfl

/-- A run comes to the same end if its first offers are reordered. -/
theorem outcome_reordered (hrules : registry.IgnoresPositions)
    (hoffers : Offer.Reordered offers offers') :
    Follows Model.Echoes (outcome registry settings count offers)
      (outcome registry settings count offers') := by
  have hempty : Twin (beforeSeeds registry count) (beforeSeeds registry count) :=
    .refl (Store.wellFormed_empty _)
  have hstart : Together ((beforeSeeds registry count).intake settings offers)
      ((beforeSeeds registry count).intake settings offers') :=
    Agree.bind (foldlM_together receive_together receive_swap hoffers hempty) retry_together
  have houtcome : Agree ExpansionError.Alike Model.Alike
      (outcome registry settings count offers) (outcome registry settings count offers') := by
    apply Agree.bind hstart
    intro a b h
    exact Agree.bind (toFixpoint_together hrules h) finish_agree
  exact houtcome.follows Model.Alike.echoes

theorem finish_echo (h : Echoes run run') : Follows Model.Echoes run.finish run'.finish := by
  cases hloose : run.loose? with
  | some error =>
      rw [finish, hloose]
      exact .error
  | none =>
      rw [finish, hloose, finish, loose?_of_echoes h hloose]
      apply Follows.ok
      cases h with
      | intro => exact ⟨.refl _, rfl, rfl, rfl, rfl, rfl⟩

/-- A run comes to the same end if some of its first offers are made twice. -/
theorem outcome_echoed (hcount : count ≤ count') (hoffers : Offer.Echoed offers offers') :
    Follows Model.Echoes (outcome registry settings count offers)
      (outcome registry settings count' offers') := by
  have hempty : Echoes (beforeSeeds registry count) (beforeSeeds registry count') :=
    .intro (Store.wellFormed_empty _) .nil hcount
  have hstart : Echo ((beforeSeeds registry count).intake settings offers)
      ((beforeSeeds registry count').intake settings offers') :=
    Follows.bind (foldlM_echo receive_echo receive_again hoffers hempty) retry_echo
  apply Follows.bind hstart
  intro a b h
  exact Follows.bind (toFixpoint_echo h) finish_echo

end Run

/-! ## Copies among the seeds -/

section Copies

variable {registry : Registry} {settings : Settings} {seeds seeds' : List Concept}
  {seed : Concept}

/-- The offers of seeds with a further copy of one are those of the seeds, in some
order, with one of them made twice. -/
theorem Offer.echoed_ofSeeds (hseed : seed ∈ seeds) :
    ∃ once twice, Reordered (ofSeeds seeds) once ∧ Echoed once twice ∧
      Reordered twice (ofSeeds (seed :: seeds)) := by
  have hmem : ofSeed seed ∈ (seeds.map ofSeed).mergeSort keyAtMost :=
    List.mem_mergeSort.2 (List.mem_map_of_mem hseed)
  obtain ⟨before, rest, hsplit⟩ := List.append_of_mem hmem
  have hechoed : Echoed ((seeds.map ofSeed).mergeSort keyAtMost)
      (before ++ ofSeed seed :: ofSeed seed :: rest) := by
    rw [hsplit]
    exact (Echoed.again _ rest).append_left before
  have hperm : ((seed :: seeds).map ofSeed).Perm
      (before ++ ofSeed seed :: ofSeed seed :: rest) := by
    refine List.Perm.trans ?_ List.perm_middle.symm
    rw [← hsplit, List.map_cons]
    exact (List.mergeSort_perm _ _).symm.cons _
  have hrefl : ∀ a : Offer, a.keyAtMost a := fun a =>
    Key.atMost_refl a.concept.key
  have hsorted := hechoed.pairwise hrefl (pairwise_mergeSort (seeds.map ofSeed))
  exact ⟨_, _, reordered_mergeSort seeds, hechoed, (reordered_of_sorted hperm hsorted).symm⟩

/-- An expansion that succeeds does so with a further copy of a seed. -/
theorem expand_follows_cons (hrules : registry.IgnoresPositions) (hseed : seed ∈ seeds) :
    Follows Model.Echoes (registry.expand settings seeds)
      (registry.expand settings (seed :: seeds)) := by
  obtain ⟨once, twice, honce, hechoed, htwice⟩ := Offer.echoed_ofSeeds hseed
  have hcount : seeds.length ≤ (seed :: seeds).length := Nat.le_succ _
  rw [Run.expand_eq_outcome, Run.expand_eq_outcome]
  apply (Run.outcome_reordered hrules honce).trans _ Model.Echoes.trans
  apply (Run.outcome_echoed hcount hechoed).trans _ Model.Echoes.trans
  exact Run.outcome_reordered hrules htwice

theorem expand_follows_append (hrules : registry.IgnoresPositions) {copies : List Concept}
    (hcopies : copies ⊆ seeds) :
    Follows Model.Echoes (registry.expand settings seeds)
      (registry.expand settings (copies ++ seeds)) := by
  induction copies with
  | nil =>
      rw [List.nil_append]
      cases registry.expand settings seeds with
      | error error => exact .error
      | ok model => exact .ok (Model.Echoes.refl model)
  | cons seed copies ih =>
      obtain ⟨hseed, hrest⟩ := List.cons_subset.1 hcopies
      apply (ih hrest).trans _ Model.Echoes.trans
      exact expand_follows_cons hrules (List.mem_append_right _ hseed)

/-- Where an expansion succeeds, it succeeds with copies of the seeds put in
anywhere, and leads to the same model. -/
theorem expand_copies {model : Model} (hrules : registry.IgnoresPositions)
    (hseeds : seeds.Sublist seeds') (hcopies : seeds' ⊆ seeds)
    (h : registry.expand settings seeds = .ok model) :
    ∃ model', registry.expand settings seeds' = .ok model' ∧ model.Echoes model' := by
  obtain ⟨copies, hperm⟩ := hseeds.exists_perm_append
  have hperm' : (copies ++ seeds).Perm seeds' := (hperm.trans List.perm_append_comm).symm
  have hsubset : copies ⊆ seeds := fun seed hseed =>
    hcopies (hperm'.subset (List.mem_append_left _ hseed))
  have hfollows : Follows Model.Echoes (registry.expand settings seeds)
      (registry.expand settings seeds') := by
    apply (expand_follows_append hrules hsubset).trans _ Model.Echoes.trans
    rw [Run.expand_eq_outcome, Run.expand_eq_outcome, hperm'.length_eq]
    exact Run.outcome_reordered hrules (Offer.reordered_ofSeeds hperm')
  rw [h] at hfollows
  exact hfollows.of_ok

end Copies

/-! ## A ballot counted twice -/

namespace Ballot

/-- Votes and letters may be handed in again, before or after the others and before
or after what they wait for. -/
theorem expand_recount : ∃ model model',
    registry.expand {} [votes 1, letter, votes 2] = .ok model ∧
      registry.expand {} [letter, votes 1, letter, votes 2, votes 1] = .ok model' ∧
        model.Echoes model' := by
  obtain ⟨model, hmodel, -⟩ := Run.exists_model_of_after registry {} [votes 1, letter, votes 2] 4
    (fun _ => true) (by cbv)
  have hseeds : [votes 1, letter, votes 2].Sublist [letter, votes 1, letter, votes 2, votes 1] := by
    decide
  have hcopies : [letter, votes 1, letter, votes 2, votes 1] ⊆ [votes 1, letter, votes 2] := by
    decide
  obtain ⟨model', hmodel', hechoes⟩ := expand_copies ignoresPositions hseeds hcopies hmodel
  exact ⟨model, model', hmodel, hmodel', hechoes⟩

end Ballot

end ConceptExpansion
