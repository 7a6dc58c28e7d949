/-
# Every offer is accounted for

A concept that is offered may be stored as a new one, merged into an older one,
found to say nothing new, or deferred through many batches. Whatever becomes of
it, it is counted exactly once: the stored concepts, the merges, the offers that
found nothing to add and the deferred offers always make up all the offers so
far. A run that succeeds leaves nothing deferred, so every seed and every
concept that a rule returned is counted in the statistics and represented in the
model.
-/

import ConceptExpansion.Proofs.Expansion.Derivation
import ConceptExpansion.Proofs.Run.Course

namespace ConceptExpansion

namespace Run

variable {registry : Registry} {settings : Settings} {seeds : List Concept}
  {passed : List Run} {run next last : Run} {jobs : List Job}

/-! ## Every offer is counted once -/

/-- The number of offers of which a state gives account: those that were stored as
a new concept, merged or found to add nothing, and those that wait. -/
def accounted (run : Run) : Nat :=
  run.store.size + run.stats.merges + run.stats.alreadyPresent + run.deferred.length

theorem size_insert {store later : Store} {concept : Concept} {origin : Origin}
    {admission : Admission} (h : store.insert concept origin = .ok (admission, later)) :
    later.size = if admission.isNew then store.size + 1 else store.size := by
  have hlength := congrArg List.length (Store.ids_insert h)
  rw [Store.length_ids] at hlength
  rw [hlength]
  cases admission.isNew <;> simp

theorem accounted_place {offer : Offer} (h : run.place settings offer = .ok next) :
    next.accounted = run.accounted + 1 := by
  obtain ⟨admission, store, hinsert, rfl⟩ := insert_of_place h
  have hsize := size_insert hinsert
  unfold accounted
  rw [record_store, record_deferred, hsize]
  cases admission <;> simp only [record, Admission.isNew, if_true, Bool.false_eq_true, if_false] <;>
    omega

/-- While offers are taken in, those that the state gives account of and those that
are still to come remain the same number. -/
theorem throughout_accounted (settings : Settings) (total : Nat) :
    Throughout settings (fun _ => True) fun run rest => run.accounted + rest.length = total where
  reject _ _ := trivial
  defer {run offer rest target} hrun _ deferrals := by
    rw [← hrun]
    simp only [accounted, List.length_append, List.length_cons, List.length_nil]
    omega
  place {run offer rest} hrun _ := by
    cases hplaced : run.place settings offer with
    | error error => trivial
    | ok next =>
        show next.accounted + rest.length = total
        rw [accounted_place hplaced, ← hrun, List.length_cons]
        omega
  pass {run} hrun := by
    rw [← hrun]
    simp only [accounted, List.length_nil, Nat.add_zero]

/-! ## What a batch returns -/

/-- The concepts that the rules return in the batch with which a state goes on. -/
def returned (registry : Registry) (run : Run) : List Concept :=
  (run.batchJobs registry).flatMap (Job.products run.store)

/-- The concepts have been taken in on the way to the later state: it gives account
of as many more offers, and it holds them. -/
structure TakesIn (run next : Run) (concepts : List Concept) : Prop where
  accounted : next.accounted = run.accounted + concepts.length
  holds : ∀ concept ∈ concepts, next.Holds concept

/-- A batch takes in all that its jobs return. -/
theorem takesIn_of_runBatch (hrun : run.store.WellFormed) (haligned : run.Aligned)
    (hsourced : run.Sourced jobs) (h : run.runBatch settings jobs = .ok next) :
    TakesIn run next (jobs.flatMap (Job.products run.store)) := by
  have hbegin : (run.charged jobs).beginBatch.accounted = run.accounted := rfl
  have hlength : (run.offered jobs).length = (jobs.flatMap (Job.products run.store)).length := by
    rw [← concepts_offered hsourced, List.length_map]
  have htotal := (throughout_accounted settings _).runBatch hrun haligned hsourced h rfl
  refine ⟨?_, fun concept hconcept => ?_⟩
  · rw [← hlength, ← hbegin]
    exact htotal
  · obtain ⟨job, hjob, hproduct⟩ := List.mem_flatMap.1 hconcept
    obtain ⟨entry, hentry⟩ := hsourced job hjob
    obtain ⟨products, hproducts, hheld⟩ := (carries_of_runBatch hrun h).2 job hjob hentry
    rw [Job.products_of_answer ((Job.answer_of_get? hentry).trans hproducts)] at hproduct
    exact hheld concept hproduct

theorem takesIn_nil (h : next.accounted = run.accounted) : TakesIn run next [] :=
  ⟨h, fun _ hconcept => absurd hconcept List.not_mem_nil⟩

/-- In every step the rules of the batch succeed, and what they return is taken
in. -/
theorem Reachable.takesIn (hrun : Reachable registry settings seeds run)
    (h : run.step registry settings = .ok next) :
    run.Answered (run.batchJobs registry) ∧ TakesIn run next (run.returned registry) := by
  have hwellFormed := hrun.accounts.wellFormed
  unfold returned
  -- The steps without a batch have no jobs and leave all that is counted alone.
  have hidle : run.batchJobs registry = [] → next.accounted = run.accounted →
      run.Answered (run.batchJobs registry) ∧
        TakesIn run next ((run.batchJobs registry).flatMap (Job.products run.store)) := by
    intro hjobs haccounted
    rw [hjobs]
    exact ⟨fun _ hjob => absurd hjob List.not_mem_nil, takesIn_nil haccounted⟩
  cases move_of_step h with
  | turn hexpanding hfresh =>
      apply hidle _ rfl
      rw [batchJobs_of_expanding hexpanding, wave_of_empty hfresh]
      rfl
  | @wave batch hexpanding hbatch =>
      have hbegin : run.beginWave.store.WellFormed := hwellFormed
      have hsourced := sourced_waveJobs registry run.beginWave run.wave
      have htaken := takesIn_of_runBatch hbegin (aligned_mark hrun.aligned) hsourced hbatch
      have hanswered := answered_of_runBatch hbegin hsourced hbatch
      rw [batchJobs_of_expanding hexpanding]
      exact ⟨hanswered, htaken.accounted, htaken.holds⟩
  | idle hreviewing hjobs =>
      apply hidle _ rfl
      rw [batchJobs_of_reviewing hreviewing, hjobs]
  | @round batch hreviewing hbatch =>
      have hbegin : run.beginReview.store.WellFormed := hwellFormed
      have hsourced := sourced_reviewJobs registry hwellFormed
      have htaken := takesIn_of_runBatch hbegin hrun.aligned hsourced hbatch
      have hanswered := answered_of_runBatch hbegin hsourced hbatch
      rw [batchJobs_of_reviewing hreviewing]
      exact ⟨hanswered, htaken.accounted, htaken.holds⟩
  | rest hsettled => exact hidle (batchJobs_of_settled hsettled) rfl

/-! ## What a run has taken in -/

theorem accounted_of_start (h : Run.start registry settings seeds = .ok run) :
    run.accounted = seeds.length := by
  have hlength : (Offer.ofSeeds seeds).length = seeds.length := by
    unfold Offer.ofSeeds
    rw [List.length_mergeSort, List.length_map, List.length_zipIdx]
  have hbegin : (beforeSeeds registry seeds.length).accounted = 0 := rfl
  have htotal : run.accounted + 0 = _ :=
    ((throughout_accounted settings _).start rfl).of_ok h
  rw [hbegin, Nat.zero_add, hlength] at htotal
  exact htotal

/-- Every state of a run gives account of the seeds and of all that the rules have
returned so far. -/
theorem Course.accounted (h : Course registry settings seeds passed run) :
    run.accounted = seeds.length + (passed.flatMap (returned registry)).length := by
  induction h with
  | start h => exact accounted_of_start h
  | step hrun _ h ih =>
      rw [(hrun.reachable.takesIn h).2.accounted, ih, List.flatMap_append, List.length_append,
        List.flatMap_singleton, Nat.add_assoc]

theorem Course.answered (h : Course registry settings seeds passed run) :
    ∀ earlier ∈ passed, earlier.Answered (earlier.batchJobs registry) := by
  induction h with
  | start => exact fun _ hearlier => absurd hearlier List.not_mem_nil
  | step hrun _ h ih =>
      intro earlier hearlier
      rcases List.mem_append.1 hearlier with hearlier | hlast
      · exact ih earlier hearlier
      · rw [List.mem_singleton.1 hlast]
        exact (hrun.reachable.takesIn h).1

/-- Every state of a run holds the seeds and all that the rules have returned so
far. -/
theorem Course.holds (h : Course registry settings seeds passed run) :
    ∀ concept ∈ seeds ++ passed.flatMap (returned registry), run.Holds concept := by
  induction h with
  | start h =>
      intro concept hconcept
      rw [List.flatMap_nil, List.append_nil] at hconcept
      exact (accounts_of_start h).offered concept hconcept
  | step hrun _ h ih =>
      have hreach := hrun.reachable
      obtain ⟨-, -, hholds⟩ := keeps_of_move hreach.accounts.wellFormed (move_of_step h)
      intro concept hconcept
      rw [List.flatMap_append, ← List.append_assoc, List.flatMap_singleton] at hconcept
      rcases List.mem_append.1 hconcept with hearlier | hlast
      · exact hholds (ih concept hearlier)
      · exact (hreach.takesIn h).2.holds concept hlast

end Run

/-- In a run that succeeds every rule succeeds. The seeds and the concepts that the
rules return are, in number, the concepts of the model, the merges and the
admissions that found an identical concept, and the model represents each of
them. -/
theorem expand_conserves {registry : Registry} {settings : Settings} {seeds : List Concept}
    {model : Model} (h : registry.expand settings seeds = .ok model) :
    ∃ passed last, Run.Course registry settings seeds passed last ∧
      last.phase = .settled ∧ last.finish = .ok model ∧
      (∀ run ∈ passed, run.Answered (run.batchJobs registry)) ∧
      seeds.length + (passed.flatMap (Run.returned registry)).length =
        model.stats.concepts + model.stats.merges + model.stats.alreadyPresent ∧
      ∀ concept ∈ seeds ++ passed.flatMap (Run.returned registry),
        model.store.Represents concept := by
  obtain ⟨passed, last, hcourse, hphase, hfinish⟩ := Run.course_of_expand h
  obtain ⟨hdeferred, hstore, -, hstats⟩ := Run.finish_ok hfinish
  refine ⟨passed, last, hcourse, hphase, hfinish, hcourse.answered, ?_, ?_⟩
  · have haccounted := hcourse.accounted
    unfold Run.accounted at haccounted
    rw [hdeferred, List.length_nil, Nat.add_zero] at haccounted
    rw [hstats, ← haccounted]
  · intro concept hconcept
    rw [hstore]
    exact (hcourse.holds concept hconcept).represents hdeferred

namespace Census

/-- A person given twice, and a letter to one who has not been found yet. -/
def repeatedSeeds : List Concept :=
  { kind := "P", fields := [.int 1] } :: seeds

/-- With one person given twice, a letter that waits and a census that grows, three
seeds and three returned concepts make four concepts, one merge and one admission
without effect. -/
theorem expand_conserves_offers : ∃ model, registry.expand {} repeatedSeeds = .ok model ∧
    (model.stats.concepts = 4 ∧ model.stats.merges = 1 ∧ model.stats.alreadyPresent = 1) ∧
    ∃ passed last, Run.Course registry {} repeatedSeeds passed last ∧
      (passed.flatMap (Run.returned registry)).length = 3 ∧
      ∀ concept ∈ passed.flatMap (Run.returned registry), model.store.Represents concept := by
  obtain ⟨model, hmodel, hcheck⟩ := Run.exists_finish_of_after registry {} repeatedSeeds 5
    (fun model => model.stats.concepts = 4 ∧ model.stats.merges = 1 ∧
      model.stats.alreadyPresent = 1) (by cbv)
  obtain ⟨hconcepts, hmerges, hpresent⟩ := of_decide_eq_true hcheck
  obtain ⟨passed, last, hcourse, -, -, -, hcount, hrepresents⟩ := expand_conserves hmodel
  have hseeds : repeatedSeeds.length = 3 := rfl
  rw [hconcepts, hmerges, hpresent, hseeds] at hcount
  refine ⟨model, hmodel, ⟨hconcepts, hmerges, hpresent⟩, passed, last, hcourse, by omega, ?_⟩
  intro concept hconcept
  exact hrepresents concept (List.mem_append_right _ hconcept)

end Census

end ConceptExpansion
