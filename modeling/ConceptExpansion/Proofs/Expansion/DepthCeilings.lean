/-
# A lower ceiling for the depth

A run looks at the depth that is allowed at one point only: where it holds a new concept
against it. Under a lower ceiling it goes through the same states and comes to the same end,
be it a model or an error, unless it is broken off before that because the depth is exceeded.
This says nothing of where that happens; but where it is known not to happen, a ceiling may
be lowered and nothing changes.
-/

import ConceptExpansion.Proofs.Expansion.Ceilings

namespace ConceptExpansion

/-- The second attempt comes to the same as the first, unless it is broken off because the
depth is exceeded. -/
inductive UnlessTooDeep {α : Type} (x : Except ExpansionError α) :
    Except ExpansionError α → Prop
  | same : UnlessTooDeep x x
  | tooDeep (limit : Nat) (chain : List Key) :
      UnlessTooDeep x (.error (.nonTerminating (.depth limit) chain))

namespace UnlessTooDeep

variable {α β σ : Type} {x y : Except ExpansionError α}

theorem bind {f g : α → Except ExpansionError β} (h : UnlessTooDeep x y)
    (hnext : ∀ a, x = .ok a → UnlessTooDeep (f a) (g a)) :
    UnlessTooDeep (x >>= f) (y >>= g) := by
  cases h with
  | tooDeep limit chain => exact .tooDeep limit chain
  | same =>
      cases x with
      | error error => exact .same
      | ok a => exact hnext a rfl

theorem foldlM {f g : α → σ → Except ExpansionError α}
    (hstep : ∀ a s, UnlessTooDeep (f a s) (g a s)) (l : List σ) (a : α) :
    UnlessTooDeep (l.foldlM f a) (l.foldlM g a) := by
  induction l generalizing a with
  | nil => exact .same
  | cons s l ih =>
      rw [List.foldlM_cons, List.foldlM_cons]
      exact bind (hstep a s) fun next _ => ih next

end UnlessTooDeep

/-- The second settings allow for no more depth than the first, and for as many
invocations. -/
structure Settings.Lowers (settings low : Settings) : Prop where
  maxDepth : low.maxDepth ≤ settings.maxDepth
  maxExpansions : low.maxExpansions = settings.maxExpansions

namespace Run

variable {registry : Registry} {settings low : Settings} {seeds : List Concept}

/-- A concept that is not too deep under the lower ceiling is not under the higher one. -/
theorem place_lower (hlow : settings.Lowers low) (run : Run) (offer : Offer) :
    UnlessTooDeep (run.place settings offer) (run.place low offer) := by
  rw [place_eq, place_eq]
  cases run.store.insert offer.concept offer.origin with
  | error cause => exact .same
  | ok answer =>
      obtain ⟨admission, store⟩ := answer
      dsimp only
      by_cases hdeep : admission.isNew = true ∧ low.maxDepth < offer.depth
      · rw [if_pos hdeep]
        exact .tooDeep _ _
      · have hshallow : ¬ (admission.isNew = true ∧ settings.maxDepth < offer.depth) :=
          fun h => hdeep ⟨h.1, hlow.maxDepth.trans_lt h.2⟩
        rw [if_neg hdeep, if_neg hshallow]
        exact .same

theorem charge_lower (hlow : settings.Lowers low) (run : Run) (jobs : List Job) :
    run.charge settings jobs = run.charge low jobs := by
  have hbudget : settings.budget = low.budget := by
    funext seeds
    simp only [Settings.budget, hlow.maxExpansions]
  unfold charge
  rw [hbudget]

theorem receive_lower (hlow : settings.Lowers low) (run : Run) (offer : Offer) :
    UnlessTooDeep (run.receive settings offer) (run.receive low offer) := by
  unfold receive
  split
  · exact .same
  · split
    · exact .same
    · exact place_lower hlow run offer

theorem reconsider_lower (hlow : settings.Lowers low) (run : Run) (offer : Offer) :
    UnlessTooDeep (run.reconsider settings offer) (run.reconsider low offer) := by
  unfold reconsider
  split
  · exact .same
  · exact place_lower hlow run offer

theorem retry_lower (hlow : settings.Lowers low) (run : Run) :
    UnlessTooDeep (run.retry settings) (run.retry low) := by
  have hpass : UnlessTooDeep (run.retryPass settings) (run.retryPass low) :=
    UnlessTooDeep.foldlM (reconsider_lower hlow) run.deferred _
  rw [retry_eq, retry_eq]
  apply hpass.bind
  intro next _
  split
  · next hlt => exact retry_lower hlow next
  · exact .same
termination_by run.deferred.length

theorem absorb_lower (hlow : settings.Lowers low) (run : Run)
    (answered : Job × Except RuleFailure (List Concept)) :
    UnlessTooDeep (run.absorb settings answered) (run.absorb low answered) := by
  obtain ⟨job, answer⟩ := answered
  simp only [absorb]
  cases run.store.get? job.source with
  | none => exact .same
  | some entry =>
      cases answer with
      | error failure => exact .same
      | ok products => exact UnlessTooDeep.foldlM (receive_lower hlow) _ run

theorem runBatch_lower (hlow : settings.Lowers low) (run : Run) (jobs : List Job) :
    UnlessTooDeep (run.runBatch settings jobs) (run.runBatch low jobs) := by
  unfold runBatch
  rw [charge_lower hlow]
  apply UnlessTooDeep.same.bind
  intro charged _
  apply (UnlessTooDeep.foldlM (absorb_lower hlow) _ charged.beginBatch).bind
  intro absorbed _
  exact retry_lower hlow absorbed

theorem step_lower (hlow : settings.Lowers low) (run : Run) :
    UnlessTooDeep (run.step registry settings) (run.step registry low) := by
  cases hphase : run.phase with
  | expanding =>
      by_cases hfresh : run.fresh = #[]
      · rw [step_turn hphase hfresh, step_turn hphase hfresh]
        exact .same
      · rw [step_wave hphase hfresh, step_wave hphase hfresh]
        exact (runBatch_lower hlow _ _).bind fun batch _ => .same
  | reviewing =>
      by_cases hjobs : run.reviewJobs registry = []
      · rw [step_idle hphase hjobs, step_idle hphase hjobs]
        exact .same
      · rw [step_round hphase hjobs, step_round hphase hjobs]
        exact (runBatch_lower hlow _ _).bind fun batch _ => .same
  | settled =>
      rw [step_of_settled hphase, step_of_settled hphase]
      exact .same

theorem toFixpoint_lower (hlow : settings.Lowers low) (run : Run) :
    UnlessTooDeep (run.toFixpoint registry settings) (run.toFixpoint registry low) := by
  have hsteps : ∀ run : Run, (∀ next, run.step registry settings = .ok next →
      UnlessTooDeep (next.toFixpoint registry settings) (next.toFixpoint registry low)) →
      UnlessTooDeep (run.toFixpoint registry settings) (run.toFixpoint registry low) := by
    intro run hnext
    rw [toFixpoint_eq run, toFixpoint_eq run]
    exact (step_lower hlow run).bind hnext
  fun_induction Run.toFixpoint registry settings run with
  | case1 run hphase =>
      rw [toFixpoint_of_settled hphase]
      exact .same
  | case2 run hphase error hstep =>
      rw [← toFixpoint_of_step_error hstep]
      refine hsteps run fun next h => ?_
      cases hstep.symm.trans h
  | case3 run hphase next hstep ih =>
      rw [← toFixpoint_of_step hstep]
      refine hsteps run fun other h => ?_
      obtain rfl : next = other := Except.ok.inj (hstep.symm.trans h)
      exact ih

end Run

/-- Under a lower ceiling an expansion comes to the same, unless it is broken off because the
depth is exceeded. -/
theorem Registry.expand_lower {settings low : Settings} (hlow : settings.Lowers low)
    (registry : Registry) (seeds : List Concept) :
    UnlessTooDeep (registry.expand settings seeds) (registry.expand low seeds) := by
  have hstart : UnlessTooDeep (Run.start registry settings seeds)
      (Run.start registry low seeds) := by
    unfold Run.start
    exact (UnlessTooDeep.foldlM (Run.receive_lower hlow) _ _).bind fun offered _ =>
      Run.retry_lower hlow offered
  apply hstart.bind
  intro started _
  exact (Run.toFixpoint_lower hlow started).bind fun last _ => .same

/-- An expansion that succeeds has kept to its ceiling. -/
theorem maxDepthReached_le_of_expand {registry : Registry} {settings : Settings}
    {seeds : List Concept} {model : Model} (h : registry.expand settings seeds = .ok model) :
    model.stats.maxDepthReached ≤ settings.maxDepth := by
  obtain ⟨started, hstart, h⟩ := exists_of_bind_eq_ok h
  obtain ⟨last, hlast, hfinish⟩ := exists_of_bind_eq_ok h
  obtain ⟨-, -, -, hstats⟩ := Run.finish_ok hfinish
  obtain ⟨-, hguarded⟩ := Run.guarded_of_settled settings hstart hlast
  rw [bind_of_eq_ok hstart, hlast] at hguarded
  rw [hstats]
  cases hguarded with
  | within hwithin => exact hwithin.depth

end ConceptExpansion
