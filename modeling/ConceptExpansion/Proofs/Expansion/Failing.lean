/-
# How an expansion fails

An expansion can fail at three points: while the seeds are taken in, in the batch of a
step, or when it is settled with something left loose. `FailsAfter` says which, and
lists the states whose batches have been begun by then, the failing one included. So an
error can be traced to what the run had done before.

A batch may fail after some of its answers have been absorbed, and then it cannot be
said of it that all its rules have succeeded. `Throughout.ends_runBatch` follows a batch
job by job; what its rules return is still to come when their job has its turn.
-/

import ConceptExpansion.Proofs.Expansion.Termination
import ConceptExpansion.Proofs.Run.Provenance

namespace ConceptExpansion

namespace Run

variable {registry : Registry} {settings : Settings} {seeds : List Concept}
  {passed begun : List Run} {run last base : Run} {jobs : List Job} {error : ExpansionError}

/-! ## Batches, job by job -/

section Batches

variable {E : ExpansionError → Prop} {P : Run → List Offer → Prop}

/-- An answer is absorbed as what the job puts forward is taken in, unless the rule has
failed. -/
theorem Throughout.ends_absorb (h : Throughout settings E P) (haligned : base.Aligned)
    (hcarries : Carries base run) (happends : Appends base run) {job : Job} {source : Entry}
    (hsource : base.store.get? job.source = some source)
    (hfailed : ∀ failure, job.rule.expand source.concept base.store = .error failure →
      E (.ruleInvocation job.rule.name source.key (.failed failure)))
    (hcome : ∀ products, job.rule.expand source.concept base.store = .ok products →
      P run (base.offersOf job source.key products)) :
    Ends E (fun next => P next [] ∧ Carries base next ∧ Appends base next)
      (run.absorb settings (job, job.answer base.store)) := by
  rw [Job.answer_of_get? hsource]
  cases hanswer : job.rule.expand source.concept base.store with
  | error failure =>
      obtain ⟨later, hlater, hkey, -⟩ := hcarries.grows.entry hsource
      have herror := hfailed failure hanswer
      unfold absorb
      dsimp only
      rw [hlater]
      dsimp only
      rw [hkey]
      exact herror
  | ok products =>
      rw [absorb_eq haligned hcarries happends hsource]
      refine Ends.and_of_ok (h.receiveAll (hcome products hanswer)) fun next hnext => ?_
      have hcarries' := (carries_of_foldlM carries_of_receive hcarries.wellFormed hnext).1
      have happends' := ((throughout_appends settings base).receiveAll happends).of_ok hnext
      exact ⟨hcarries.trans hcarries', happends'⟩

/-- The answers of a batch are absorbed one by one, and between two of them nothing is to
come but the answers of the jobs that are left. -/
theorem Throughout.ends_absorbAll (h : Throughout settings E P) (hbase : base.store.WellFormed)
    (haligned : base.Aligned) (hsourced : base.Sourced jobs)
    (hfailed : ∀ {job : Job} {source : Entry} {failure : RuleFailure}, job ∈ jobs →
      base.store.get? job.source = some source →
      job.rule.expand source.concept base.store = .error failure →
      E (.ruleInvocation job.rule.name source.key (.failed failure)))
    (hcome : ∀ {state : Run} {job : Job} {source : Entry} {products : List Concept},
      base.store.size ≤ state.store.size → P state [] → job ∈ jobs →
      base.store.get? job.source = some source →
      job.rule.expand source.concept base.store = .ok products →
      P state (base.offersOf job source.key products))
    (hbegin : P base []) :
    Ends E (P · [])
      ((jobs.zip (jobs.map (Job.answer base.store))).foldlM (absorb settings) base) := by
  rw [← List.map_prod_left_eq_zip, List.foldlM_map]
  refine Ends.imp (Ends.foldlM (I := fun state rest => (∀ job ∈ rest, job ∈ jobs) ∧
    P state [] ∧ Carries base state ∧ Appends base state) ?_ ?_) fun _ h => h.2.1
  · rintro state job rest ⟨hjobs, hstate, hcarries, happends⟩
    have hjob := hjobs job List.mem_cons_self
    obtain ⟨source, hsource⟩ := hsourced job hjob
    refine Ends.imp (h.ends_absorb haligned hcarries happends hsource
      (fun _ => hfailed hjob hsource)
      fun _ => hcome happends.size_le hstate hjob hsource) ?_
    rintro next ⟨hnext, hcarries', happends'⟩
    exact ⟨fun other hother => hjobs other (List.mem_cons_of_mem _ hother), hnext,
      hcarries', happends'⟩
  · exact ⟨fun _ hjob => hjob, hbegin, .refl hbase, .refl _⟩

/-- What holds throughout the taking in of offers governs how a batch ends, whatever its
rules answer, if it goes on to hold when the products of a job are to come. -/
theorem Throughout.ends_runBatch (h : Throughout settings E P) (hrun : run.store.WellFormed)
    (haligned : run.Aligned) (hsourced : run.Sourced jobs)
    (hcharge : ∀ error, run.charge settings jobs = .error error → E error)
    (hfailed : ∀ {job : Job} {source : Entry} {failure : RuleFailure}, job ∈ jobs →
      run.store.get? job.source = some source →
      job.rule.expand source.concept run.store = .error failure →
      E (.ruleInvocation job.rule.name source.key (.failed failure)))
    (hcome : ∀ {state : Run} {job : Job} {source : Entry} {products : List Concept},
      run.store.size ≤ state.store.size → P state [] → job ∈ jobs →
      run.store.get? job.source = some source →
      job.rule.expand source.concept run.store = .ok products →
      P state (run.offersOf job source.key products))
    (hbegin : P (run.charged jobs).beginBatch []) :
    Ends E (P · []) (run.runBatch settings jobs) := by
  by_cases hbudget : jobs.length ≤ run.budgetLeft settings
  · have hrun' : (run.charged jobs).beginBatch.store.WellFormed := hrun
    have haligned' : (run.charged jobs).beginBatch.Aligned := haligned
    have hfold := h.ends_absorbAll hrun' haligned' hsourced hfailed hcome hbegin
    unfold Run.runBatch
    rw [bind_of_eq_ok (charge_eq_ok hbudget)]
    exact hfold.bind fun _ _ habsorbed => h.retry habsorbed
  · have hover := charge_eq_error (Nat.not_le.1 hbudget)
    unfold Run.runBatch
    rw [bind_of_eq_error hover]
    exact hcharge _ hover

end Batches

/-! ## Where an expansion fails -/

/-- The run over these seeds has begun the batches of the listed states, in this order,
and has failed with the error: while the seeds were taken in, in the step of the last of
the states, or when it was settled. -/
inductive FailsAfter (registry : Registry) (settings : Settings) (seeds : List Concept) :
    List Run → ExpansionError → Prop
  | start {error : ExpansionError} (h : Run.start registry settings seeds = .error error) :
      FailsAfter registry settings seeds [] error
  | step {passed : List Run} {run : Run} {error : ExpansionError}
      (hcourse : Course registry settings seeds passed run)
      (h : run.step registry settings = .error error) :
      FailsAfter registry settings seeds (passed ++ [run]) error
  | finish {passed : List Run} {last : Run} {error : ExpansionError}
      (hcourse : Course registry settings seeds passed last) (hphase : last.phase = .settled)
      (h : last.finish = .error error) : FailsAfter registry settings seeds passed error

/-- An expansion fails exactly if its run does. -/
theorem expand_eq_error_iff : registry.expand settings seeds = .error error ↔
    ∃ begun, FailsAfter registry settings seeds begun error := by
  constructor
  · intro h
    cases hstart : Run.start registry settings seeds with
    | error cause =>
        rw [Registry.expand, bind_of_eq_error hstart] at h
        cases h
        exact ⟨[], .start hstart⟩
    | ok started =>
        rw [(Reachable.start hstart).expand_eq] at h
        cases hlast : started.toFixpoint registry settings with
        | error cause =>
            rw [bind_of_eq_error hlast] at h
            cases h
            obtain ⟨failing, hreach, hstep⟩ := exists_step_of_toFixpoint_error (.start hstart) hlast
            obtain ⟨passed, hcourse⟩ := hreach.exists_course
            exact ⟨_, .step hcourse hstep⟩
        | ok last =>
            rw [bind_of_eq_ok hlast] at h
            obtain ⟨passed, hcourse, hphase⟩ := Course.toFixpoint (.start hstart) hlast
            exact ⟨passed, .finish hcourse hphase h⟩
  · rintro ⟨begun, hfails⟩
    cases hfails with
    | start h => exact bind_of_eq_error h _
    | step hcourse h =>
        rw [hcourse.reachable.expand_eq]
        exact bind_of_eq_error (toFixpoint_of_step_error h) _
    | finish hcourse hphase h =>
        rw [hcourse.reachable.expand_eq]
        exact (bind_of_eq_ok (toFixpoint_of_settled hphase) _).trans h

/-- If the batch of a step fails, the error is one with which offers are taken in, as long
as what the run amounts to so far, and what else `Q` says of its states, holds throughout. -/
theorem Course.error_of_step {E : ExpansionError → Prop} {Q : Run → Prop}
    (h : Course registry settings seeds passed run)
    (hthroughout : Throughout settings E fun state rest =>
      Attributed registry settings seeds (passed ++ [run]) state rest ∧ Q state)
    (hbegin : ∀ state, SameLineage state run → Q state)
    (hcharge : ∀ limit chain, E (.nonTerminating (.expansions limit) chain))
    (hfailed : ∀ name source failure, E (.ruleInvocation name source (.failed failure)))
    (hstep : run.step registry settings = .error error) : E error := by
  have hrun := h.attributed
  have hbatch : ∀ opened : Run, SameLineage opened run → opened.deferred = run.deferred →
      Ends E (fun _ => True) (opened.runBatch settings (run.batchJobs registry)) := by
    intro opened hsame hdeferred
    have hsourced : opened.Sourced (run.batchJobs registry) := by
      unfold Sourced
      rw [hsame.store]
      exact (fitting_batchJobs registry hrun.wellFormed).sourced
    have hopened : SameLineage (opened.charged (run.batchJobs registry)).beginBatch run :=
      { hsame with }
    have hattributed : Attributed registry settings seeds (passed ++ [run])
        (opened.charged (run.batchJobs registry)).beginBatch [] :=
      hrun.congr (List.subset_append_left _ _) hopened hdeferred
    refine (hthroughout.ends_runBatch (hsame.store ▸ hrun.wellFormed) hsame.aligned hsourced ?_
      (fun _ _ _ => hfailed _ _ _) ?_ ⟨hattributed, hbegin _ hopened⟩).imp fun _ _ => trivial
    · intro error hover
      obtain ⟨chain, rfl⟩ := charge_error hover
      exact hcharge _ _
    · rintro state job source products hsize ⟨hstate, hstate'⟩ hjob hsource hproducts
      refine ⟨⟨hstate.wellFormed, hstate.aligned, ?_, hstate.stored⟩, hstate'⟩
      intro offer hoffer
      rcases List.mem_append.1 hoffer with hwaiting | hnew
      · exact hstate.waiting offer (List.mem_append_left _ hwaiting)
      · obtain ⟨concept, hconcept, rfl⟩ := List.mem_map.1 hnew
        rw [hsame.store] at hsource hproducts hsize
        rw [hsame.depthOf]
        exact .product (List.mem_append_right _ List.mem_cons_self) hsize hjob hsource hproducts
          hconcept
  rcases step_eq_error_iff.1 hstep with ⟨hphase, -, hfails⟩ | ⟨hphase, -, hfails⟩
  · rw [← batchJobs_of_expanding hphase] at hfails
    exact (hbatch _ (.beginWave hrun.aligned) rfl).of_error hfails
  · rw [← batchJobs_of_reviewing hphase] at hfails
    exact (hbatch _ (.beginReview hrun.aligned) rfl).of_error hfails

/-! ## Batches that are carried out -/

/-- The budget covers the batch with which the state goes on, so all its rules are
invoked. -/
def Covered (registry : Registry) (settings : Settings) (run : Run) : Prop :=
  (run.batchJobs registry).length ≤ run.budgetLeft settings

theorem covered_of_step {next : Run} (h : run.step registry settings = .ok next) :
    run.Covered registry settings := by
  unfold Covered
  cases move_of_step h with
  | turn hphase hfresh =>
      rw [batchJobs_of_expanding hphase, wave_of_empty hfresh]
      exact Nat.zero_le _
  | wave hphase hbatch =>
      rw [batchJobs_of_expanding hphase]
      exact (runBatch_ok_cases hbatch).1
  | idle hphase hjobs =>
      rw [batchJobs_of_reviewing hphase, hjobs]
      exact Nat.zero_le _
  | round hphase hbatch =>
      rw [batchJobs_of_reviewing hphase]
      exact (runBatch_ok_cases hbatch).1
  | rest hphase =>
      rw [batchJobs_of_settled hphase]
      exact Nat.zero_le _

theorem Course.covered_of_mem (h : Course registry settings seeds passed run) {earlier : Run}
    (hearlier : earlier ∈ passed) : earlier.Covered registry settings := by
  induction h with
  | start => cases hearlier
  | step _ _ hstep ih =>
      rcases List.mem_append.1 hearlier with hearlier | hlast
      · exact ih hearlier
      · rw [List.mem_singleton.1 hlast]
        exact covered_of_step hstep

theorem Course.reachable_of_mem (h : Course registry settings seeds passed last)
    (hrun : run ∈ passed) : Reachable registry settings seeds run := by
  obtain ⟨before, hbefore, -⟩ := h.of_mem hrun
  exact hbefore.reachable

/-- A run that fails has been in every state whose batch it has begun. -/
theorem FailsAfter.reachable (h : FailsAfter registry settings seeds begun error)
    (hrun : run ∈ begun) : Reachable registry settings seeds run := by
  cases h with
  | start => cases hrun
  | step hcourse =>
      rcases List.mem_append.1 hrun with hearlier | hlast
      · exact hcourse.reachable_of_mem hearlier
      · exact List.mem_singleton.1 hlast ▸ hcourse.reachable
  | finish hcourse => exact hcourse.reachable_of_mem hrun

/-- Unless it has run out of budget, a run that fails has invoked the rules of all
batches that it has begun. -/
theorem FailsAfter.covered (h : FailsAfter registry settings seeds begun error)
    (herror : NotOverrun error) (hrun : run ∈ begun) : run.Covered registry settings := by
  cases h with
  | start => cases hrun
  | @step passed failing _ hcourse hstep =>
      rcases List.mem_append.1 hrun with hearlier | hlast
      · exact hcourse.covered_of_mem hearlier
      · rw [List.mem_singleton.1 hlast]
        obtain ⟨hseeds, hle⟩ := hcourse.reachable.visits.ruleInvocations_le
        rw [← hseeds] at hle
        by_contra hover
        have hover : settings.budget failing.stats.seeds <
            failing.stats.ruleInvocations + (failing.batchJobs registry).length :=
          (Nat.sub_lt_iff_lt_add' hle).1 (Nat.not_le.1 hover)
        obtain ⟨chain, hoverrun⟩ := (step_overrun_iff hle).2 ⟨rfl, hover⟩
        exact herror _ chain (Except.error.inj (hstep.symm.trans hoverrun))
  | finish hcourse => exact hcourse.covered_of_mem hrun

end Run

end ConceptExpansion
