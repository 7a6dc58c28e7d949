/-
# Model-reading rules end at a fixed point

A run settles only by a round of review that has changed nothing. In such a
round every model-reading rule of every stored concept reads the store that the
run ends with, and what it produces is held. An expansion that succeeds leaves
nothing deferred, so all of it is stored: asking the rules once more would
change nothing. This needs no monotonicity; a rule may produce less, or fail,
when the store grows.
-/

import ConceptExpansion.Proofs.Run.Reachable

namespace ConceptExpansion

section FixedPoint

variable {registry : Registry} {settings : Settings} {seeds : List Concept}

namespace Run

/-- Every model-reading rule has been asked about every stored concept, as the
store stands, and all the answers are held. -/
def Reviewed (registry : Registry) (run : Run) : Prop :=
  ∀ entry ∈ run.store.entries, ∀ rule ∈ registry.rulesFor entry.concept.kind,
    rule.readsModel = true →
      ∃ products, rule.expand entry.concept run.store = .ok products ∧
        ∀ product ∈ products, run.Holds product

/-- A round that changes nothing has reviewed the store that it leaves behind. -/
theorem reviewed_of_round {run batch : Run} (hrun : run.store.WellFormed)
    (hbatch : run.beginReview.runBatch settings (run.reviewJobs registry) = .ok batch)
    (hunchanged : batch.changed = false) : Reviewed registry batch := by
  have hstore : batch.store = run.store :=
    ((carries_of_round hrun hbatch).unchanged hunchanged).2.1
  have hbegin : run.beginReview.store.WellFormed := hrun
  intro entry hentry rule hrule hreads
  rw [hstore] at hentry ⊢
  have hget := hrun.get?_of_mem hentry
  have hjob : ⟨entry.id, rule⟩ ∈ run.reviewJobs registry :=
    (mem_reviewJobs hrun).2 ⟨entry, hget, hrule, hreads⟩
  exact (carries_of_runBatch hbegin hbatch).2 _ hjob hget

/-- A run that has settled has been reviewed. -/
theorem Reachable.reviewed {run : Run} (h : Reachable registry settings seeds run)
    (hphase : run.phase = .settled) : Reviewed registry run := by
  induction h with
  | start h =>
      rw [phase_of_start h] at hphase
      cases hphase
  | @step run next hrun h ih =>
      have hwellFormed := hrun.accounts.wellFormed
      cases move_of_step h with
      | turn => cases hphase
      | wave hexpanding hbatch =>
          cases (phase_of_wave hexpanding hbatch).symm.trans hphase
      | idle _ hjobs =>
          intro entry hentry rule hrule hreads
          have hjob : ⟨entry.id, rule⟩ ∈ run.reviewJobs registry :=
            (mem_reviewJobs hwellFormed).2
              ⟨entry, hwellFormed.get?_of_mem hentry, hrule, hreads⟩
          rw [hjobs] at hjob
          cases hjob
      | @round batch _ hbatch =>
          have hunchanged : batch.changed = false :=
            unchanged_of_round fun hexpanding => by cases hexpanding.symm.trans hphase
          have hreviewed := reviewed_of_round hwellFormed hbatch hunchanged
          exact hreviewed
      | rest hsettled => exact ih hsettled

end Run

/-- In a model every model-reading rule succeeds on every stored concept, and
admitting what it produces changes nothing. -/
theorem readingRule_fixed {model : Model} (h : registry.expand settings seeds = .ok model)
    {entry : Entry} (hentry : entry ∈ model.store.entries)
    {rule : Rule} (hrule : rule ∈ registry.rulesFor entry.concept.kind)
    (hreads : rule.readsModel = true) :
    ∃ products, rule.expand entry.concept model.store = .ok products ∧
      model.store.Absorbs products := by
  obtain ⟨last, hlast, hphase, hdeferred, hstore⟩ := Run.reachable_of_expand h
  rw [hstore] at hentry ⊢
  obtain ⟨products, hproducts, hheld⟩ := hlast.reviewed hphase entry hentry rule hrule hreads
  refine ⟨products, hproducts, ?_⟩
  apply Store.absorbs_of_represents hlast.accounts.wellFormed
  intro product hproduct
  exact (hheld product hproduct).represents hdeferred

end FixedPoint

/-! ## A catalogue -/

namespace Catalogue

/-- The rule of catalogues: to list every stored item. -/
def list : Rule where
  name := "list"
  readsModel := true
  expand concept store :=
    .ok [concept.setAttribute "items" (.list ((store.ofKind "I").map (·.key.toValue)))]

/-- Catalogues, which list items, and items. -/
def registry : Registry where
  schema := .ofKinds
    [{ name := "C", cumulative := .ofNames ["items"] }, { name := "I", keyFields := ["n"] }]
  rules := .ofList [("C", [list])]

/-- A catalogue that lists nothing yet, and an item. -/
def seeds : List Concept :=
  [{ kind := "C" }, { kind := "I", fields := [.int 1] }]

/-- The catalogue once it is complete. -/
def complete : Concept :=
  { kind := "C", payload := .ofList [("items", .list [.ref "I" [.int 1]])] }

/-- A catalogue that lists every item stays as it is when the rule is asked once
more. -/
theorem list_fixed :
    ∃ model, registry.expand {} seeds = .ok model ∧
      ∃ entry ∈ model.store.entries, entry.concept = complete ∧
        list ∈ registry.rulesFor entry.concept.kind ∧ list.readsModel = true ∧
        ∃ products, list.expand entry.concept model.store = .ok products ∧
          model.store.Absorbs products := by
  obtain ⟨model, hmodel, entry, hentry, hconcept⟩ :=
    Run.exists_entry_of_after registry {} seeds 4 complete (by cbv)
  have hrule : list ∈ registry.rulesFor entry.concept.kind := by
    rw [hconcept]
    exact List.mem_singleton.2 rfl
  exact ⟨model, hmodel, entry, hentry, hconcept, hrule, rfl,
    readingRule_fixed hmodel hentry hrule rfl⟩

end Catalogue

end ConceptExpansion
