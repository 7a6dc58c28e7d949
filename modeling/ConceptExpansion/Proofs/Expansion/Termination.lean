/-
# Every expansion ends within its budget

Whatever the rules produce, an expansion ends. Passes over the deferred offers
cannot go on for ever, because each that is followed by another leaves fewer
offers deferred. Nor can waves and rounds, because each makes the run smaller in
the order of `step_decreases`. At every point of a run the invocations charged
so far are within the budget, and a run is broken off for want of budget exactly
when the next batch has more jobs than what is left of it.

`Visits` looks inside the steps of a run, down to single offers. It leaves open
which offers come and which jobs are charged, so that the bound does not depend
on what the rules produce.
-/

import ConceptExpansion.Proofs.Run.Course

namespace ConceptExpansion

namespace Run

variable {registry : Registry} {settings : Settings} {seeds : List Concept}
  {run next last : Run} {jobs : List Job}

/-! ## No loop goes on for ever -/

/-- A pass over the deferred offers after which another pass follows, because it
has not left as many of them as it found. -/
def PassesOn (settings : Settings) (next run : Run) : Prop :=
  run.retryPass settings = .ok next ∧ next.deferred.length ≠ run.deferred.length

/-- A step of a run that is not settled: a wave, a round, or the turn from waves to
review. -/
def StepsOn (registry : Registry) (settings : Settings) (next run : Run) : Prop :=
  run.phase ≠ .settled ∧ run.step registry settings = .ok next

theorem wellFounded_passesOn (settings : Settings) : WellFounded (PassesOn settings) := by
  apply Subrelation.wf (r := InvImage (· < ·) fun run : Run => run.deferred.length)
  · rintro next run ⟨hpass, hne⟩
    have hfold : run.deferred.foldlM (reconsider settings) { run with deferred := [] } =
        .ok next := hpass
    have hle := (deferred_of_reconsider hfold).1
    rw [List.length_nil, Nat.zero_add] at hle
    exact Nat.lt_of_le_of_ne hle hne
  · exact InvImage.wf _ Nat.lt_wfRel.wf

theorem wellFounded_stepsOn (registry : Registry) (settings : Settings) :
    WellFounded (StepsOn registry settings) := by
  apply Subrelation.wf (r := InvImage (Prod.Lex (· < ·) (Prod.Lex (· < ·) (· < ·)))
    fun run : Run => (run.budgetLeft settings, run.deferred.length, run.distance))
  · rintro next run ⟨hphase, hstep⟩
    exact step_decreases hphase hstep
  · exact InvImage.wf _ (WellFounded.prod_lex Nat.lt_wfRel.wf
      (WellFounded.prod_lex Nat.lt_wfRel.wf Nat.lt_wfRel.wf))

theorem steps_succ (run : Run) (count : Nat) :
    run.steps registry settings (count + 1) =
      run.step registry settings >>= fun next => next.steps registry settings count := by
  rw [steps]
  cases run.step registry settings <;> rfl

theorem steps_add (run : Run) (count more : Nat) :
    run.steps registry settings (count + more) =
      run.steps registry settings count >>= fun next => next.steps registry settings more := by
  induction count generalizing run with
  | zero =>
      rw [Nat.zero_add]
      rfl
  | succ count ih =>
      rw [Nat.add_right_comm, steps_succ, steps_succ, bind_assoc]
      exact bind_congr fun next => ih next

theorem steps_of_settled (hphase : run.phase = .settled) (count : Nat) :
    run.steps registry settings count = .ok run := by
  induction count with
  | zero => rfl
  | succ count ih => rw [steps_succ, bind_of_eq_ok (step_of_settled hphase), ih]

/-- After finitely many steps a run has failed or is settled. -/
theorem exists_steps (registry : Registry) (settings : Settings) (run : Run) :
    ∃ count, (∃ error, run.steps registry settings count = .error error) ∨
      ∃ last, run.steps registry settings count = .ok last ∧ last.phase = .settled := by
  induction run using (wellFounded_stepsOn registry settings).induction with
  | _ run ih =>
      by_cases hphase : run.phase = .settled
      · exact ⟨0, .inr ⟨run, rfl, hphase⟩⟩
      · cases hstep : run.step registry settings with
        | error error =>
            exact ⟨1, .inl ⟨error, (steps_succ run 0).trans (bind_of_eq_error hstep _)⟩⟩
        | ok next =>
            obtain ⟨count, hcount⟩ := ih next ⟨hphase, hstep⟩
            refine ⟨count + 1, ?_⟩
            rwa [steps_succ, bind_of_eq_ok hstep]

/-- Once a run has failed or is settled, further steps change nothing. -/
theorem exists_steps_eq_toFixpoint (registry : Registry) (settings : Settings) (run : Run) :
    ∃ enough, ∀ count, enough ≤ count →
      run.steps registry settings count = run.toFixpoint registry settings := by
  obtain ⟨enough, hends⟩ := exists_steps registry settings run
  refine ⟨enough, fun count hle => ?_⟩
  obtain ⟨more, rfl⟩ := Nat.exists_eq_add_of_le hle
  rw [steps_add]
  rcases hends with ⟨error, herror⟩ | ⟨last, hlast, hphase⟩
  · rw [bind_of_eq_error herror, toFixpoint_of_steps_error herror]
  · rw [bind_of_eq_ok hlast, steps_of_settled hphase, toFixpoint_of_steps hlast hphase]

/-! ## The budget -/

/-- The states that a run passes through, down to single offers, whatever offers
come and whatever jobs are charged. -/
inductive Visits (registry : Registry) (settings : Settings) (seeds : List Concept) :
    Run → Prop
  | before : Visits registry settings seeds (beforeSeeds registry seeds.length)
  | receive {run next : Run} {offer : Offer} (hrun : Visits registry settings seeds run)
      (h : run.receive settings offer = .ok next) : Visits registry settings seeds next
  | setAside {run : Run} (hrun : Visits registry settings seeds run) :
      Visits registry settings seeds { run with deferred := [] }
  | reconsider {run next : Run} {offer : Offer} (hrun : Visits registry settings seeds run)
      (h : run.reconsider settings offer = .ok next) : Visits registry settings seeds next
  | charge {run next : Run} {jobs : List Job} (hrun : Visits registry settings seeds run)
      (h : run.charge settings jobs = .ok next) : Visits registry settings seeds next
  | beginBatch {run : Run} (hrun : Visits registry settings seeds run) :
      Visits registry settings seeds run.beginBatch
  | beginWave {run : Run} (hrun : Visits registry settings seeds run) :
      Visits registry settings seeds run.beginWave
  | beginReview {run : Run} (hrun : Visits registry settings seeds run) :
      Visits registry settings seeds run.beginReview
  | mark {run : Run} (hrun : Visits registry settings seeds run) (stage : Stage)
      (ids : List ConceptId) : Visits registry settings seeds (run.mark stage ids)
  | turn {run : Run} (hrun : Visits registry settings seeds run) (phase : Phase) :
      Visits registry settings seeds { run with phase := phase }

namespace Visits

theorem foldlM {α : Type} {f : Run → α → Except ExpansionError Run} {l : List α}
    (hf : ∀ {run next : Run} {a : α}, Visits registry settings seeds run → f run a = .ok next →
      Visits registry settings seeds next)
    (hrun : Visits registry settings seeds run) (h : l.foldlM f run = .ok next) :
    Visits registry settings seeds next := by
  refine Ends.of_ok (E := fun _ => True)
    (Ends.foldlM (I := fun run _ => Visits registry settings seeds run) (fun hmiddle => ?_) hrun) h
  rename_i middle a rest
  cases hstep : f middle a with
  | error error => trivial
  | ok later => exact hf hmiddle hstep

theorem retry (hrun : Visits registry settings seeds run) (h : run.retry settings = .ok next) :
    Visits registry settings seeds next := by
  fun_induction Run.retry settings run with
  | case1 run error hpass => cases h
  | case2 run middle hpass hlt ih => exact ih (foldlM .reconsider hrun.setAside hpass) h
  | case3 run middle hpass hnlt =>
      cases h
      exact foldlM .reconsider hrun.setAside hpass

theorem absorb {answered : Job × Except RuleFailure (List Concept)}
    (hrun : Visits registry settings seeds run) (h : run.absorb settings answered = .ok next) :
    Visits registry settings seeds next := by
  obtain ⟨-, rfl⟩ | ⟨entry, products, -, -, hreceive⟩ := absorb_cases h
  · exact hrun
  · exact foldlM .receive hrun hreceive

theorem runBatch (hrun : Visits registry settings seeds run)
    (h : run.runBatch settings jobs = .ok next) : Visits registry settings seeds next := by
  obtain ⟨charged, hcharge, h⟩ := exists_of_bind_eq_ok h
  obtain ⟨absorbed, habsorb, hretry⟩ := exists_of_bind_eq_ok h
  exact (foldlM absorb (hrun.charge hcharge).beginBatch habsorb).retry hretry

/-- At every point of a run the charged invocations are within the budget. -/
theorem ruleInvocations_le (h : Visits registry settings seeds run) :
    run.stats.seeds = seeds.length ∧
      run.stats.ruleInvocations ≤ settings.budget seeds.length := by
  induction h with
  | before => exact ⟨rfl, Nat.zero_le _⟩
  | receive _ h ih =>
      have hsame := sameCharge_of_receive h
      rwa [hsame.seeds, hsame.ruleInvocations]
  | reconsider _ h ih =>
      have hsame := sameCharge_of_reconsider h
      rwa [hsame.seeds, hsame.ruleInvocations]
  | @charge run next jobs _ h ih =>
      obtain ⟨hseeds, hle⟩ := ih
      obtain ⟨hbudget, rfl⟩ := charge_ok h
      unfold budgetLeft at hbudget
      rw [hseeds] at hbudget
      refine ⟨hseeds, ?_⟩
      show run.stats.ruleInvocations + jobs.length ≤ _
      omega
  | setAside _ ih | beginBatch _ ih | beginWave _ ih | beginReview _ ih | mark _ _ _ ih
  | turn _ _ ih => exact ih

end Visits

theorem Reachable.visits (h : Reachable registry settings seeds run) :
    Visits registry settings seeds run := by
  induction h with
  | start h =>
      obtain ⟨offered, hoffered, hretry⟩ := start_ok h
      exact (Visits.foldlM .receive .before hoffered).retry hretry
  | step _ h ih =>
      cases move_of_step h with
      | turn => exact ih.turn _
      | wave _ hbatch => exact (ih.beginWave.runBatch hbatch).mark _ _
      | idle => exact ih.beginBatch.turn _
      | round _ hbatch => exact (ih.beginReview.runBatch hbatch).turn _
      | rest => exact ih

/-! ## Running out of budget -/

/-- The errors other than that the budget does not cover the next batch. -/
def NotOverrun (error : ExpansionError) : Prop :=
  ∀ limit chain, error ≠ .nonTerminating (.expansions limit) chain

/-- Taking in offers never runs out of budget. -/
theorem throughout_notOverrun (settings : Settings) :
    Throughout settings NotOverrun fun _ _ => True := by
  apply (throughout_ofIntake settings).imp_error
  rintro error hintake limit chain herror
  cases hintake with
  | ofStoreError cause => cases cause <;> cases herror
  | invalidSeed | invalidProduct | tooDeep => cases herror

/-- A batch fails because an offer cannot be taken in or because a rule has failed, if
the budget covers it. -/
theorem Throughout.ends_batch {E : ExpansionError → Prop}
    (h : Throughout settings E fun _ _ => True)
    (hfailed : ∀ name source failure, E (.ruleInvocation name source (.failed failure)))
    (hcharged : Ends E (fun _ => True) (run.charge settings jobs)) :
    Ends E (fun _ => True) (run.runBatch settings jobs) := by
  have habsorb : ∀ (run : Run) (answered : Job × Except RuleFailure (List Concept)),
      Ends E (fun _ => True) (run.absorb settings answered) := by
    rintro run ⟨job, answer⟩
    unfold absorb
    dsimp only
    cases run.store.get? job.source with
    | none => trivial
    | some entry =>
        cases answer with
        | error failure => exact hfailed job.rule.name entry.key failure
        | ok products => exact h.receiveAll trivial
  unfold Run.runBatch
  refine hcharged.bind fun charged _ _ => ?_
  refine Ends.bind (P := fun _ => True) ?_ fun absorbed _ _ => h.retry trivial
  exact Ends.foldlM (I := fun _ _ => True) (fun _ => habsorb _ _) trivial

/-- A batch that the budget covers does not run out of it. -/
theorem notOverrun_of_runBatch (hbudget : jobs.length ≤ run.budgetLeft settings) :
    Ends NotOverrun (fun _ => True) (run.runBatch settings jobs) := by
  apply (throughout_notOverrun settings).ends_batch
  · intro name source failure limit chain h
    cases h
  · rw [charge_eq_ok hbudget]
    trivial

/-- A batch that the budget does not cover fails for the first job that it does not pay
for. -/
theorem runBatch_of_lt (hbudget : run.budgetLeft settings < jobs.length) :
    run.runBatch settings jobs = .error (.nonTerminating
      (.expansions (settings.budget run.stats.seeds))
      (run.chain (jobs.get ⟨run.budgetLeft settings, hbudget⟩).source)) :=
  bind_of_eq_error (charge_eq_error hbudget) _

/-- A batch runs out of budget exactly if it has more jobs than the budget has
left, and then the limit that it reports is the budget. -/
theorem runBatch_overrun_iff {limit : Nat} :
    (∃ chain, run.runBatch settings jobs = .error (.nonTerminating (.expansions limit) chain)) ↔
      limit = settings.budget run.stats.seeds ∧
        settings.budget run.stats.seeds - run.stats.ruleInvocations < jobs.length := by
  constructor
  · rintro ⟨chain, h⟩
    by_cases hbudget : jobs.length ≤ run.budgetLeft settings
    · exact absurd rfl ((notOverrun_of_runBatch hbudget).of_error h limit chain)
    · rw [runBatch_of_lt (Nat.not_le.1 hbudget)] at h
      cases h
      exact ⟨rfl, Nat.not_le.1 hbudget⟩
  · rintro ⟨rfl, hlt⟩
    exact ⟨_, runBatch_of_lt hlt⟩

/-- An attempt that something is made of only if it succeeds fails by itself. -/
theorem bind_ok_eq_error_iff {ε α β : Type} {x : Except ε α} {f : α → β} {e : ε} :
    (x >>= fun a => .ok (f a)) = .error e ↔ x = .error e := by
  constructor
  · intro h
    cases x with
    | error e' =>
        cases h
        rfl
    | ok a => cases h
  · intro h
    exact bind_of_eq_error h _

/-- A step fails exactly if it runs a batch and the batch fails. -/
theorem step_eq_error_iff {error : ExpansionError} :
    run.step registry settings = .error error ↔
      (run.phase = .expanding ∧ run.fresh ≠ #[] ∧
        run.beginWave.runBatch settings (run.waveJobs registry run.wave) = .error error) ∨
      (run.phase = .reviewing ∧ run.reviewJobs registry ≠ [] ∧
        run.beginReview.runBatch settings (run.reviewJobs registry) = .error error) := by
  cases hphase : run.phase with
  | expanding =>
      by_cases hfresh : run.fresh = #[]
      · rw [step_turn hphase hfresh]
        simp [hfresh]
      · rw [step_wave hphase hfresh, bind_ok_eq_error_iff]
        have hjobs : run.beginWave.waveJobs registry run.wave = run.waveJobs registry run.wave := rfl
        simp [hfresh, hjobs]
  | reviewing =>
      by_cases hjobs : run.reviewJobs registry = []
      · rw [step_idle hphase hjobs]
        simp [hjobs]
      · rw [step_round hphase hjobs, bind_ok_eq_error_iff]
        simp [hjobs]
  | settled =>
      rw [step_of_settled hphase]
      simp

/-- A step runs out of budget exactly if the jobs of its batch, together with the
invocations so far, exceed it. -/
theorem step_overrun_iff (hle : run.stats.ruleInvocations ≤ settings.budget run.stats.seeds)
    {limit : Nat} :
    (∃ chain, run.step registry settings =
        .error (.nonTerminating (.expansions limit) chain)) ↔
      limit = settings.budget run.stats.seeds ∧
        limit < run.stats.ruleInvocations + (run.batchJobs registry).length := by
  constructor
  · rintro ⟨chain, h⟩
    rcases step_eq_error_iff.1 h with ⟨hphase, -, hbatch⟩ | ⟨hphase, -, hbatch⟩
    · obtain ⟨hlimit, hlt⟩ := runBatch_overrun_iff.1 ⟨chain, hbatch⟩
      rw [batchJobs_of_expanding hphase, hlimit]
      exact ⟨rfl, Nat.sub_lt_iff_lt_add' hle |>.1 hlt⟩
    · obtain ⟨hlimit, hlt⟩ := runBatch_overrun_iff.1 ⟨chain, hbatch⟩
      rw [batchJobs_of_reviewing hphase, hlimit]
      exact ⟨rfl, Nat.sub_lt_iff_lt_add' hle |>.1 hlt⟩
  · rintro ⟨rfl, hlt⟩
    have hjobs : run.batchJobs registry ≠ [] := fun hnil => by
      rw [hnil, List.length_nil] at hlt
      omega
    cases hphase : run.phase with
    | expanding =>
        rw [batchJobs_of_expanding hphase] at hlt hjobs
        have hfresh : run.fresh ≠ #[] := fun hempty => hjobs (by rw [wave_of_empty hempty]; rfl)
        obtain ⟨chain, hbatch⟩ : ∃ chain, run.beginWave.runBatch settings
            (run.beginWave.waveJobs registry run.wave) = .error (.nonTerminating _ chain) :=
          runBatch_overrun_iff.2 ⟨rfl, (Nat.sub_lt_iff_lt_add' hle).2 hlt⟩
        exact ⟨chain, step_eq_error_iff.2 (.inl ⟨hphase, hfresh, hbatch⟩)⟩
    | reviewing =>
        rw [batchJobs_of_reviewing hphase] at hlt hjobs
        obtain ⟨chain, hbatch⟩ : ∃ chain, run.beginReview.runBatch settings
            (run.reviewJobs registry) = .error (.nonTerminating _ chain) :=
          runBatch_overrun_iff.2 ⟨rfl, (Nat.sub_lt_iff_lt_add' hle).2 hlt⟩
        exact ⟨chain, step_eq_error_iff.2 (.inr ⟨hphase, hjobs, hbatch⟩)⟩
    | settled => exact absurd (batchJobs_of_settled hphase) hjobs

/-! ## Where an expansion fails -/

theorem Reachable.of_steps {count : Nat} (hrun : Reachable registry settings seeds run)
    (h : run.steps registry settings count = .ok last) :
    Reachable registry settings seeds last := by
  induction count generalizing run with
  | zero =>
      cases h
      exact hrun
  | succ count ih =>
      rw [steps] at h
      split at h
      · cases h
      · next hstep => exact ih (.step hrun hstep) h

/-- An expansion that fails before it is settled does so in a step from a state
that it reaches, unless the seeds cannot be taken in. -/
theorem exists_step_of_toFixpoint_error {error : ExpansionError}
    (hrun : Reachable registry settings seeds run)
    (h : run.toFixpoint registry settings = .error error) :
    ∃ failing, Reachable registry settings seeds failing ∧
      failing.step registry settings = .error error := by
  fun_induction Run.toFixpoint registry settings run with
  | case1 run hphase => cases h
  | case2 run hphase error' hstep =>
      cases h
      exact ⟨run, hrun, hstep⟩
  | case3 run hphase next hstep ih => exact ih (.step hrun hstep) h

/-- What can be computed of the state after some steps is true of a reachable
state. -/
theorem exists_reachable_of_after (registry : Registry) (settings : Settings)
    (seeds : List Concept) (count : Nat) (check : Run → Bool)
    (h : (after registry settings seeds count).toOption.any check = true) :
    ∃ run, Reachable registry settings seeds run ∧ check run = true := by
  cases hafter : after registry settings seeds count with
  | error e => rw [hafter] at h; cases h
  | ok run =>
      rw [hafter] at h
      obtain ⟨started, hstart, hsteps⟩ := exists_of_bind_eq_ok hafter
      exact ⟨run, (Reachable.start hstart).of_steps hsteps, h⟩

theorem notOverrun_of_start (registry : Registry) (settings : Settings) (seeds : List Concept) :
    Ends NotOverrun (fun _ => True) (Run.start registry settings seeds) :=
  (throughout_notOverrun settings).start trivial

theorem notOverrun_of_finish (run : Run) : Ends NotOverrun (fun _ => True) run.finish := by
  cases hfinish : run.finish with
  | ok model => trivial
  | error error =>
      obtain ⟨concept, origin, target, rfl⟩ := unresolved_of_finish hfinish
      exact nofun

/-- An expansion runs out of budget exactly if some state that it reaches goes on
with a batch that the budget does not cover. -/
theorem expand_overrun_iff {limit : Nat} :
    (∃ chain, registry.expand settings seeds =
        .error (.nonTerminating (.expansions limit) chain)) ↔
      limit = settings.budget seeds.length ∧
        ∃ run, Reachable registry settings seeds run ∧
          limit < run.stats.ruleInvocations + (run.batchJobs registry).length := by
  constructor
  · rintro ⟨chain, h⟩
    cases hstart : Run.start registry settings seeds with
    | error error =>
        rw [Registry.expand, bind_of_eq_error hstart] at h
        cases h
        exact absurd rfl ((notOverrun_of_start registry settings seeds).of_error hstart limit chain)
    | ok started =>
        rw [(Reachable.start hstart).expand_eq] at h
        cases hlast : started.toFixpoint registry settings with
        | error error =>
            rw [bind_of_eq_error hlast] at h
            cases h
            obtain ⟨failing, hreach, hstep⟩ := exists_step_of_toFixpoint_error (.start hstart) hlast
            obtain ⟨hseeds, hle⟩ := hreach.visits.ruleInvocations_le
            rw [← hseeds] at hle ⊢
            obtain ⟨hlimit, hlt⟩ := (step_overrun_iff hle).1 ⟨chain, hstep⟩
            exact ⟨hlimit, failing, hreach, hlt⟩
        | ok last =>
            rw [bind_of_eq_ok hlast] at h
            exact absurd rfl ((notOverrun_of_finish last).of_error h limit chain)
  · rintro ⟨rfl, run, hreach, hlt⟩
    obtain ⟨hseeds, hle⟩ := hreach.visits.ruleInvocations_le
    rw [← hseeds] at hle hlt ⊢
    obtain ⟨chain, hstep⟩ := (step_overrun_iff hle).2 ⟨rfl, hlt⟩
    refine ⟨chain, ?_⟩
    rw [hreach.expand_eq]
    exact bind_of_eq_error (toFixpoint_of_step_error hstep) _

/-! ## Summary -/

/-- No loop of an expansion goes on for ever: neither the passes over the deferred
offers nor the waves and rounds. So after finitely many steps the run has failed,
and with it the expansion, or it is settled and only has to be finished. -/
structure AlwaysEnds (registry : Registry) (settings : Settings) (seeds : List Concept) :
    Prop where
  passes : WellFounded (PassesOn settings)
  steps : WellFounded (StepsOn registry settings)
  outcome : ∃ count,
    (∃ error, after registry settings seeds count = .error error ∧
      registry.expand settings seeds = .error error) ∨
    ∃ last, after registry settings seeds count = .ok last ∧ last.phase = .settled ∧
      registry.expand settings seeds = last.finish

/-- The budget grows with the seeds up to the largest count. It bounds the
invocations that have been charged at every point of a run, hence those of a
model, and an expansion is broken off for want of it exactly if the invocations
so far together with the jobs of the next batch exceed it. -/
structure KeepsBudget (registry : Registry) (settings : Settings) (seeds : List Concept) :
    Prop where
  budget : settings.budget seeds.length =
    min (settings.maxExpansions * max 1 seeds.length) (2 ^ 64 - 1)
  passed : ∀ {run : Run}, Reachable registry settings seeds run →
    Visits registry settings seeds run
  charged : ∀ {run : Run}, Visits registry settings seeds run →
    run.stats.ruleInvocations ≤ settings.budget seeds.length
  model : ∀ {model : Model}, registry.expand settings seeds = .ok model →
    model.stats.ruleInvocations ≤ settings.budget seeds.length
  overrun : ∀ {limit : Nat},
    (∃ chain, registry.expand settings seeds =
        .error (.nonTerminating (.expansions limit) chain)) ↔
      limit = settings.budget seeds.length ∧
        ∃ run, Reachable registry settings seeds run ∧
          limit < run.stats.ruleInvocations + (run.batchJobs registry).length

theorem alwaysEnds (registry : Registry) (settings : Settings) (seeds : List Concept) :
    AlwaysEnds registry settings seeds where
  passes := wellFounded_passesOn settings
  steps := wellFounded_stepsOn registry settings
  outcome := by
    cases hstart : Run.start registry settings seeds with
    | error error =>
        have hafter : after registry settings seeds 0 = .error error := bind_of_eq_error hstart _
        exact ⟨0, .inl ⟨error, hafter, expand_of_after_error hafter⟩⟩
    | ok started =>
        obtain ⟨count, hcount⟩ := exists_steps registry settings started
        have hafter : after registry settings seeds count =
            started.steps registry settings count := bind_of_eq_ok hstart _
        refine ⟨count, hcount.imp ?_ ?_⟩
        · rintro ⟨error, herror⟩
          have herror' := hafter.trans herror
          exact ⟨error, herror', expand_of_after_error herror'⟩
        · rintro ⟨last, hlast, hphase⟩
          have hlast' := hafter.trans hlast
          exact ⟨last, hlast', hphase, expand_of_after hlast' hphase⟩

theorem keepsBudget (registry : Registry) (settings : Settings) (seeds : List Concept) :
    KeepsBudget registry settings seeds where
  budget := by
    have hcount : Settings.maxCount = 2 ^ 64 - 1 := by decide
    unfold Settings.budget
    rw [max_comm, hcount]
  passed := Reachable.visits
  charged h := h.ruleInvocations_le.2
  model {model} h := by
    obtain ⟨passed, last, hcourse, -, hfinish⟩ := course_of_expand h
    obtain ⟨-, -, -, hstats⟩ := finish_ok hfinish
    rw [hstats]
    exact hcourse.reachable.visits.ruleInvocations_le.2
  overrun := expand_overrun_iff

end Run

/-- Whatever the rules produce, every expansion ends, and it charges no more rule
invocations than the budget grants. -/
theorem expand_ends_within_budget (registry : Registry) (settings : Settings)
    (seeds : List Concept) :
    Run.AlwaysEnds registry settings seeds ∧ Run.KeepsBudget registry settings seeds :=
  ⟨Run.alwaysEnds registry settings seeds, Run.keepsBudget registry settings seeds⟩

/-! ## A runaway rule -/

namespace Runaway

/-- A number has a successor. -/
def next : Rule where
  name := "next"
  expand concept _ :=
    .ok [{ concept with fields := [.int (((concept.field? 0).bind Value.int?).getD 0 + 1)] }]

/-- The numbers. -/
def registry : Registry where
  schema := .ofKinds [{ name := "N", keyFields := ["n"] }]
  rules := .ofList [("N", [next])]

/-- The first number. -/
def seeds : List Concept :=
  [{ kind := "N", fields := [.int 0] }]

/-- One successor after the other would go on for ever, but two invocations for a
single seed are used up after two waves. -/
theorem expand_overruns : ∃ chain, registry.expand { maxExpansions := 2 } seeds =
    .error (.nonTerminating (.expansions 2) chain) := by
  obtain ⟨run, hrun, hcheck⟩ := Run.exists_reachable_of_after registry { maxExpansions := 2 }
    seeds 2 (fun run => run.stats.ruleInvocations = 2 ∧ (run.batchJobs registry).length = 1)
    (by cbv)
  obtain ⟨hcharged, hjobs⟩ := of_decide_eq_true hcheck
  have hbudget := (expand_ends_within_budget registry { maxExpansions := 2 } seeds).2
  refine hbudget.overrun.2 ⟨by decide, run, hrun, ?_⟩
  rw [hcharged, hjobs]
  decide

end Runaway

end ConceptExpansion
