/-
# Runs make progress

Every step of a run that is not settled makes it smaller, in this order of
importance: the budget that is left, the number of deferred offers, and the
distance to the settled phase. A batch with jobs uses up budget. A batch without
jobs can only place deferred offers; if it places none, it admits nothing, and
the run turns from waves to review. Review without jobs settles the run.

The first half of the module says what taking in offers leaves alone.
-/

import ConceptExpansion.Run.Batch

namespace ConceptExpansion.Run

variable {registry : Registry} {settings : Settings}

/-- What is fixed while offers are taken in: the number of seeds and of rule
invocations, and the phase. -/
structure SameCharge (run next : Run) : Prop where
  seeds : next.stats.seeds = run.stats.seeds
  ruleInvocations : next.stats.ruleInvocations = run.stats.ruleInvocations
  phase : next.phase = run.phase

theorem SameCharge.rfl {run : Run} : SameCharge run run := ⟨.refl _, .refl _, .refl _⟩

theorem SameCharge.trans {a b c : Run} (h : SameCharge a b) (h' : SameCharge b c) :
    SameCharge a c :=
  ⟨h'.seeds.trans h.seeds, h'.ruleInvocations.trans h.ruleInvocations, h'.phase.trans h.phase⟩

/-- A fold of steps that charge nothing charges nothing. -/
theorem sameCharge_of_foldlM {α : Type} {f : Run → α → Except ExpansionError Run}
    (hstep : ∀ {run a next}, f run a = .ok next → SameCharge run next) {l : List α}
    {run next : Run} (h : l.foldlM f run = .ok next) : SameCharge run next := by
  induction l generalizing run with
  | nil =>
    cases h
    exact .rfl
  | cons a l ih =>
    rw [List.foldlM_cons] at h
    obtain ⟨middle, hf, h⟩ := exists_of_bind_eq_ok h
    exact (hstep hf).trans (ih h)

/-- Placing an offer charges nothing and defers nothing. -/
theorem place_ok {run next : Run} {offer : Offer} (h : run.place settings offer = .ok next) :
    SameCharge run next ∧ next.deferred = run.deferred := by
  unfold place at h
  split at h
  · cases h
  · dsimp only at h
    split at h
    · cases h
    · cases h
      exact ⟨⟨rfl, rfl, rfl⟩, rfl⟩
  · cases h
    exact ⟨⟨rfl, rfl, rfl⟩, rfl⟩
  · cases h
    exact ⟨⟨rfl, rfl, rfl⟩, rfl⟩

theorem sameCharge_of_receive {run next : Run} {offer : Offer}
    (h : run.receive settings offer = .ok next) : SameCharge run next := by
  obtain ⟨-, ⟨target, -, rfl⟩ | ⟨-, hplace⟩⟩ := receive_cases h
  · exact ⟨rfl, rfl, rfl⟩
  · exact (place_ok hplace).1

theorem sameCharge_of_reconsider {run next : Run} {offer : Offer}
    (h : run.reconsider settings offer = .ok next) : SameCharge run next := by
  obtain ⟨target, -, rfl⟩ | ⟨-, hplace⟩ := reconsider_cases h
  · exact ⟨rfl, rfl, rfl⟩
  · exact (place_ok hplace).1

theorem sameCharge_of_absorb {run next : Run}
    {answered : Job × Except RuleFailure (List Concept)}
    (h : run.absorb settings answered = .ok next) : SameCharge run next := by
  obtain ⟨-, rfl⟩ | ⟨entry, products, -, -, hreceive⟩ := absorb_cases h
  · exact .rfl
  · exact sameCharge_of_foldlM sameCharge_of_receive hreceive

theorem sameCharge_of_retryPass {run next : Run} (h : run.retryPass settings = .ok next) :
    SameCharge run next := by
  have := sameCharge_of_foldlM (f := reconsider settings) sameCharge_of_reconsider h
  exact ⟨this.seeds, this.ruleInvocations, this.phase⟩

/-- Trying offers again defers each of them at most once more, and if it defers
all of them, it admits nothing. -/
theorem deferred_of_reconsider {offers : List Offer} {run next : Run}
    (h : offers.foldlM (reconsider settings) run = .ok next) :
    next.deferred.length ≤ run.deferred.length + offers.length ∧
      (run.deferred.length + offers.length ≤ next.deferred.length → next.fresh = run.fresh) := by
  induction offers generalizing run with
  | nil =>
    cases h
    simp
  | cons offer offers ih =>
    rw [List.foldlM_cons] at h
    obtain ⟨middle, hf, h⟩ := exists_of_bind_eq_ok h
    obtain ⟨hle, hfresh⟩ := ih h
    obtain ⟨target, -, rfl⟩ | ⟨-, hplace⟩ := reconsider_cases hf
    · simp only [List.length_append, List.length_cons, List.length_nil] at hle hfresh ⊢
      exact ⟨by omega, fun hall => hfresh (by omega)⟩
    · rw [(place_ok hplace).2] at hle
      simp only [List.length_cons]
      exact ⟨by omega, fun hall => by omega⟩

/-- Trying again is a pass over the deferred offers, followed by another one if the
pass has placed any. -/
theorem retry_eq (run : Run) :
    run.retry settings = run.retryPass settings >>= fun next =>
      if next.deferred.length < run.deferred.length then next.retry settings else .ok next := by
  rw [retry]
  cases run.retryPass settings <;> rfl

theorem retry_of_pass_error {run : Run} {error : ExpansionError}
    (h : run.retryPass settings = .error error) : run.retry settings = .error error := by
  rw [retry, h]

theorem retry_of_lt {run next : Run} (h : run.retryPass settings = .ok next)
    (hlt : next.deferred.length < run.deferred.length) :
    run.retry settings = next.retry settings := by
  rw [retry, h]
  exact if_pos hlt

theorem retry_of_not_lt {run next : Run} (h : run.retryPass settings = .ok next)
    (hnlt : ¬ next.deferred.length < run.deferred.length) : run.retry settings = .ok next := by
  rw [retry, h]
  exact if_neg hnlt

/-- A retry charges nothing, and it either leaves fewer offers deferred or admits
nothing. -/
theorem retry_ok {run next : Run} (h : run.retry settings = .ok next) :
    SameCharge run next ∧
      (next.deferred.length < run.deferred.length ∨
        next.deferred.length = run.deferred.length ∧ next.fresh = run.fresh) := by
  fun_induction retry settings run with
  | case1 run error hpass => cases h
  | case2 run middle hpass hlt ih =>
    obtain ⟨hcharge, hdeferred⟩ := ih h
    refine ⟨(sameCharge_of_retryPass hpass).trans hcharge, .inl ?_⟩
    rcases hdeferred with hdeferred | ⟨hdeferred, -⟩ <;> omega
  | case3 run middle hpass hnlt =>
    cases h
    have hfold := deferred_of_reconsider (by simpa only [retryPass] using hpass)
    simp only [List.length_nil, Nat.zero_add] at hfold
    exact ⟨sameCharge_of_retryPass hpass, .inr ⟨by omega, hfold.2 (by omega)⟩⟩

/-- The state in which a batch of jobs has been charged to the budget. -/
def charged (run : Run) (jobs : List Job) : Run :=
  { run with
    stats := { run.stats with ruleInvocations := run.stats.ruleInvocations + jobs.length } }

/-- The budget that is left to a run. -/
def budgetLeft (settings : Settings) (run : Run) : Nat :=
  settings.budget run.stats.seeds - run.stats.ruleInvocations

theorem charge_eq_ok {run : Run} {jobs : List Job} (h : jobs.length ≤ run.budgetLeft settings) :
    run.charge settings jobs = .ok (run.charged jobs) :=
  dif_neg (Nat.not_lt.2 h)

theorem charge_eq_error {run : Run} {jobs : List Job}
    (h : run.budgetLeft settings < jobs.length) :
    run.charge settings jobs = .error (.nonTerminating
      (.expansions (settings.budget run.stats.seeds))
      (run.chain (jobs.get ⟨run.budgetLeft settings, h⟩).source)) :=
  dif_pos h

/-- A batch that can be charged is covered by the budget. -/
theorem charge_ok {run next : Run} {jobs : List Job} (h : run.charge settings jobs = .ok next) :
    jobs.length ≤ run.budgetLeft settings ∧ next = run.charged jobs := by
  by_cases hbudget : jobs.length ≤ run.budgetLeft settings
  · rw [charge_eq_ok hbudget] at h
    exact ⟨hbudget, (Except.ok.inj h).symm⟩
  · rw [charge_eq_error (Nat.not_le.1 hbudget)] at h
    cases h

/-- A batch cannot be charged only for want of budget. -/
theorem charge_error {run : Run} {jobs : List Job} {error : ExpansionError}
    (h : run.charge settings jobs = .error error) :
    ∃ chain, error = .nonTerminating (.expansions (settings.budget run.stats.seeds)) chain := by
  by_cases hbudget : jobs.length ≤ run.budgetLeft settings
  · rw [charge_eq_ok hbudget] at h
    cases h
  · rw [charge_eq_error (Nat.not_le.1 hbudget)] at h
    exact ⟨_, (Except.error.inj h).symm⟩

/-- A batch that succeeds is covered by the budget, is charged to it, absorbs its
answers and ends with a retry. -/
theorem runBatch_ok_cases {run next : Run} {jobs : List Job}
    (h : run.runBatch settings jobs = .ok next) :
    jobs.length ≤ settings.budget run.stats.seeds - run.stats.ruleInvocations ∧
      ∃ absorbed,
        (jobs.zip (jobs.map (Job.answer run.store))).foldlM (absorb settings)
          (run.charged jobs).beginBatch = .ok absorbed ∧
        absorbed.retry settings = .ok next := by
  obtain ⟨middle, hcharge, h⟩ := exists_of_bind_eq_ok h
  obtain ⟨hbudget, rfl⟩ := charge_ok hcharge
  obtain ⟨absorbed, habsorb, hretry⟩ := exists_of_bind_eq_ok h
  exact ⟨hbudget, absorbed, habsorb, hretry⟩

/-- A batch is charged one invocation per job, within the budget. Without jobs it
can only place deferred offers. -/
theorem runBatch_ok {run next : Run} {jobs : List Job}
    (h : run.runBatch settings jobs = .ok next) :
    next.stats.seeds = run.stats.seeds ∧ next.phase = run.phase ∧
      next.stats.ruleInvocations = run.stats.ruleInvocations + jobs.length ∧
      (jobs ≠ [] →
        next.stats.ruleInvocations ≤ settings.budget run.stats.seeds) ∧
      (jobs = [] →
        next.deferred.length < run.deferred.length ∨
          next.deferred.length = run.deferred.length ∧ next.fresh = #[]) := by
  obtain ⟨hbudget, absorbed, habsorb, hretry⟩ := runBatch_ok_cases h
  obtain ⟨hcharge, hdeferred⟩ := retry_ok hretry
  have hsame := (sameCharge_of_foldlM sameCharge_of_absorb habsorb).trans hcharge
  have hinv : next.stats.ruleInvocations = run.stats.ruleInvocations + jobs.length :=
    hsame.ruleInvocations
  refine ⟨hsame.seeds, hsame.phase, hinv, fun hjobs => ?_, fun hjobs => ?_⟩
  · have : 0 < jobs.length := List.length_pos_iff.2 hjobs
    omega
  · subst hjobs
    cases habsorb
    exact hdeferred

/-- The distance of a run to the settled phase. -/
def distance (run : Run) : Nat :=
  match run.phase with
  | .expanding => if run.fresh.isEmpty then 2 else 3
  | .reviewing => 1
  | .settled => 0

/-- Every step of a run that is not settled makes it smaller. -/
theorem step_decreases {run next : Run} (hphase : run.phase ≠ .settled)
    (h : run.step registry settings = .ok next) :
    Prod.Lex (· < ·) (Prod.Lex (· < ·) (· < ·))
      (next.budgetLeft settings, next.deferred.length, next.distance)
      (run.budgetLeft settings, run.deferred.length, run.distance) := by
  unfold step at h
  split at h
  · next hexpanding =>
    split at h
    · next hempty =>
      cases h
      refine .right _ (.right _ ?_)
      simp [distance, hexpanding, hempty]
    · next hfresh =>
      unfold expandWave at h
      generalize run.beginWave.waveJobs registry run.wave = jobs at h
      cases hbatch : run.beginWave.runBatch settings jobs with
      | error e => rw [hbatch] at h; cases h
      | ok batch =>
        rw [hbatch] at h
        cases h
        obtain ⟨hseeds, hnext, hinv, hwithin, hidle⟩ := runBatch_ok hbatch
        simp only [beginWave, mark] at hseeds hnext hinv hwithin hidle
        by_cases hempty : jobs = []
        · subst hempty
          have hleft : (batch.mark .expanded run.wave).budgetLeft settings =
              run.budgetLeft settings := by
            simp [budgetLeft, mark, hseeds, hinv]
          rw [hleft]
          refine .right _ ?_
          rcases hidle rfl with hlt | ⟨heq, hfresh'⟩
          · exact .left _ _ hlt
          · rw [show (batch.mark .expanded run.wave).deferred = batch.deferred from rfl, heq]
            refine .right _ ?_
            simp [distance, mark, hnext, hexpanding, hfresh', hfresh]
        · refine .left _ _ ?_
          have hpos := List.length_pos_iff.2 hempty
          have hwithin := hwithin hempty
          simp only [budgetLeft, mark, hseeds]
          omega
  · next hreviewing =>
    unfold review at h
    split at h
    · cases h
      refine .right _ (.right _ ?_)
      simp [distance, hreviewing]
    · next job jobs _ =>
      cases hbatch : run.beginReview.runBatch settings (job :: jobs) with
      | error e => rw [hbatch] at h; cases h
      | ok batch =>
        rw [hbatch] at h
        cases h
        obtain ⟨hseeds, hnext, hinv, hwithin, hidle⟩ := runBatch_ok hbatch
        have hwithin := hwithin (by simp)
        simp only [beginReview, List.length_cons] at hseeds hinv hwithin
        refine .left _ _ ?_
        simp only [budgetLeft, hseeds]
        omega
  · next hsettled => exact absurd hsettled hphase

end ConceptExpansion.Run
