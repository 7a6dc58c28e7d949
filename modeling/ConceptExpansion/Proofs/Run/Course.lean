/-
# The course of a run

`Reachable` forgets how a state was reached. `Course` keeps the states that a run
has passed through, in order, and with them every batch of the run: a state that
is expanding goes on with a wave, a state that is reviewing with a round. What a
run has done so far can then be said of its course.

Two accounts are kept along every course. The rule invocations charged so far
are the jobs of all batches so far. And the waves so far, together with the
concepts that are fresh, list every stored concept exactly once: those of the
waves have been expanded, the fresh ones have just been admitted.
-/

import ConceptExpansion.Proofs.Run.Output
import ConceptExpansion.Proofs.Run.Reachable

namespace ConceptExpansion

theorem eraseReps_of_nodup {α : Type} [DecidableEq α] {list : List α} (h : list.Nodup) :
    list.eraseReps = list := by
  induction list with
  | nil => rfl
  | cons a rest ih =>
      cases rest with
      | nil => rfl
      | cons b rest =>
          obtain ⟨hfirst, hrest⟩ := List.nodup_cons.1 h
          have hne : a ≠ b := fun heq => hfirst (heq ▸ List.mem_cons_self)
          rw [eraseReps_cons_cons, if_neg hne, ih hrest]

namespace Run

variable {registry : Registry} {settings : Settings} {seeds : List Concept}
  {passed : List Run} {run next last batch : Run} {jobs : List Job}

/-! ## Courses -/

/-- The concepts that a state goes on to expand. -/
def currentWave (run : Run) : List ConceptId :=
  match run.phase with
  | .expanding => run.wave
  | .reviewing | .settled => []

/-- The jobs of the wave with which a state goes on. -/
def currentWaveJobs (registry : Registry) (run : Run) : List Job :=
  run.waveJobs registry run.currentWave

/-- The jobs of the round with which a state goes on. -/
def currentRoundJobs (registry : Registry) (run : Run) : List Job :=
  match run.phase with
  | .reviewing => run.reviewJobs registry
  | .expanding | .settled => []

/-- The jobs of the batch with which a state goes on, a wave or a round. -/
def batchJobs (registry : Registry) (run : Run) : List Job :=
  run.currentWaveJobs registry ++ run.currentRoundJobs registry

/-- A run over these seeds has passed through the listed states, with one step
between each and the next, and now stands at the last state. -/
inductive Course (registry : Registry) (settings : Settings) (seeds : List Concept) :
    List Run → Run → Prop
  | start {run : Run} (h : Run.start registry settings seeds = .ok run) :
      Course registry settings seeds [] run
  | step {passed : List Run} {run next : Run} (hrun : Course registry settings seeds passed run)
      (hphase : run.phase ≠ .settled) (h : run.step registry settings = .ok next) :
      Course registry settings seeds (passed ++ [run]) next

theorem Course.reachable (h : Course registry settings seeds passed run) :
    Reachable registry settings seeds run := by
  induction h with
  | start h => exact .start h
  | step _ _ h ih => exact .step ih h

/-- A state that is reached is the end of a course, which stops where the run
settles. -/
theorem Reachable.exists_course (h : Reachable registry settings seeds run) :
    ∃ passed, Course registry settings seeds passed run := by
  induction h with
  | start h => exact ⟨[], .start h⟩
  | @step run next _ h ih =>
      obtain ⟨passed, hcourse⟩ := ih
      by_cases hphase : run.phase = .settled
      · obtain rfl : run = next := Except.ok.inj ((step_of_settled hphase).symm.trans h)
        exact ⟨passed, hcourse⟩
      · exact ⟨_, .step hcourse hphase h⟩

/-- Every state that a run has passed through was the end of a course itself, and
its store has only grown since. -/
theorem Course.of_mem (h : Course registry settings seeds passed run) {earlier : Run}
    (hearlier : earlier ∈ passed) :
    ∃ before, Course registry settings seeds before earlier ∧
      earlier.store.Grows run.store := by
  induction h with
  | start => cases hearlier
  | @step passed run next hrun hphase h ih =>
      have hgrows := (keeps_of_move hrun.reachable.accounts.wellFormed (move_of_step h)).2.1
      rcases List.mem_append.1 hearlier with hearlier | hlast
      · obtain ⟨before, hbefore, hgrown⟩ := ih hearlier
        exact ⟨before, hbefore, hgrown.trans hgrows⟩
      · obtain rfl := List.mem_singleton.1 hlast
        exact ⟨passed, hrun, hgrows⟩

theorem Course.toFixpoint (hrun : Course registry settings seeds passed run)
    (h : run.toFixpoint registry settings = .ok last) :
    ∃ passed, Course registry settings seeds passed last ∧ last.phase = .settled := by
  fun_induction Run.toFixpoint registry settings run generalizing passed with
  | case1 run hphase =>
      cases h
      exact ⟨passed, hrun, hphase⟩
  | case2 run hphase error hstep => cases h
  | case3 run hphase next hstep ih => exact ih (.step hrun hphase hstep) h

/-- An expansion that succeeds is the end of a course. -/
theorem course_of_expand {model : Model} (h : registry.expand settings seeds = .ok model) :
    ∃ passed last, Course registry settings seeds passed last ∧ last.phase = .settled ∧
      last.finish = .ok model := by
  obtain ⟨started, hstart, h⟩ := exists_of_bind_eq_ok h
  obtain ⟨last, hlast, h⟩ := exists_of_bind_eq_ok h
  obtain ⟨passed, hcourse, hphase⟩ := Course.toFixpoint (.start hstart) hlast
  exact ⟨passed, last, hcourse, hphase, h⟩

/-- What holds throughout the taking in of offers holds once the seeds are taken
in. -/
theorem Throughout.start {E : ExpansionError → Prop} {P : Run → List Offer → Prop}
    (h : Throughout settings E P)
    (hbegin : P (beforeSeeds registry seeds.length) (Offer.ofSeeds seeds)) :
    Ends E (P · []) (Run.start registry settings seeds) :=
  h.intake hbegin

/-! ## How far concepts have come -/

/-- How far a stored concept has come. -/
def stageOf? (run : Run) (id : ConceptId) : Option Stage :=
  run.lineage[id.index]?.map (·.stage)

theorem latest_latest (s stage : Stage) : (s.latest stage).latest stage = s.latest stage := by
  cases s <;> cases stage <;> rfl

theorem rank_le_latest (s stage : Stage) : s.rank ≤ (s.latest stage).rank := by
  cases s <;> cases stage <;> decide

theorem mark_cons (run : Run) (stage : Stage) (id : ConceptId) (ids : List ConceptId) :
    run.mark stage (id :: ids) = (run.mark stage [id]).mark stage ids := rfl

theorem lineage_mark_singleton (run : Run) (stage : Stage) (id : ConceptId) :
    (run.mark stage [id]).lineage =
      run.lineage.modify id.index fun l => { l with stage := l.stage.latest stage } := rfl

@[simp]
theorem size_lineage_mark (run : Run) (stage : Stage) (ids : List ConceptId) :
    (run.mark stage ids).lineage.size = run.lineage.size := by
  induction ids generalizing run with
  | nil => rfl
  | cons id ids ih =>
      rw [mark_cons, ih, lineage_mark_singleton, Array.size_modify]

/-- Marking concepts brings them, and no others, as far as the stage. -/
theorem stageOf?_mark (run : Run) (stage : Stage) (ids : List ConceptId) (id : ConceptId) :
    (run.mark stage ids).stageOf? id =
      (run.stageOf? id).map fun s => if id ∈ ids then s.latest stage else s := by
  induction ids generalizing run with
  | nil => simp [mark]
  | cons first ids ih =>
      have hfirst : (run.mark stage [first]).stageOf? id =
          (run.stageOf? id).map fun s => if id = first then s.latest stage else s := by
        unfold stageOf?
        rw [lineage_mark_singleton, Array.getElem?_modify]
        by_cases hid : id = first
        · subst hid
          cases run.lineage[id.index]? <;> simp
        · have hindex : first.index ≠ id.index := fun h => hid (Store.id_ext h.symm)
          simp [hindex, hid, Function.comp_def]
      rw [mark_cons, ih, hfirst, Option.map_map]
      congr 1
      funext s
      by_cases hid : id = first
      · subst hid
        by_cases hmem : id ∈ ids <;> simp [hmem, latest_latest]
      · simp [hid]

theorem Appends.stageOf?_of_lt (h : Appends run next) {id : ConceptId}
    (hid : id.index < run.lineage.size) : next.stageOf? id = run.stageOf? id := by
  unfold stageOf?
  rw [h.lineage_getElem? hid]

/-- What is new has just been admitted. -/
theorem Appends.stageOf?_of_le (h : Appends run next) {id : ConceptId}
    (hid : id.index < next.lineage.size) (hnew : run.lineage.size ≤ id.index) :
    next.stageOf? id = some .admitted := by
  obtain ⟨ids, lineages, h⟩ := h
  have hlookup : next.lineage[id.index]? = lineages[id.index - run.lineage.size]? := by
    rw [← Array.getElem?_toList, h.lineage, List.getElem?_append_right (by simpa using hnew),
      Array.length_toList]
  have hget : next.lineage[id.index]? = some next.lineage[id.index] :=
    Array.getElem?_eq_getElem hid
  have hmem : next.lineage[id.index] ∈ lineages := List.mem_of_getElem? (hlookup ▸ hget)
  unfold stageOf?
  rw [hget, Option.map_some, h.stage _ hmem]

/-! ## Lineages stay aligned -/

theorem aligned_mark {stage : Stage} {ids : List ConceptId} (h : run.Aligned) :
    (run.mark stage ids).Aligned :=
  (size_lineage_mark run stage ids).trans h

theorem appends_of_start (h : Run.start registry settings seeds = .ok run) :
    Appends (beforeSeeds registry seeds.length) run :=
  ((throughout_appends settings _).start (.refl _)).of_ok h

theorem appends_of_wave (hrun : run.store.WellFormed) (haligned : run.Aligned)
    (hbatch : run.beginWave.runBatch settings (run.beginWave.waveJobs registry run.wave) =
      .ok batch) : Appends run.beginWave.beginBatch batch := by
  have hbegin : run.beginWave.store.WellFormed := hrun
  exact appends_of_runBatch hbegin (aligned_mark haligned)
    (sourced_waveJobs registry run.beginWave run.wave) hbatch

theorem appends_of_round (hrun : run.store.WellFormed) (haligned : run.Aligned)
    (hbatch : run.beginReview.runBatch settings (run.reviewJobs registry) = .ok batch) :
    Appends run.beginReview.beginBatch batch := by
  have hbegin : run.beginReview.store.WellFormed := hrun
  exact appends_of_runBatch hbegin haligned (sourced_reviewJobs registry hrun) hbatch

/-- Every stored concept of a reachable state has a lineage. -/
theorem Reachable.aligned (h : Reachable registry settings seeds run) : run.Aligned := by
  induction h with
  | start h =>
      have hbegin : (beforeSeeds registry seeds.length).Aligned := rfl
      exact (appends_of_start h).aligned hbegin
  | @step run next hrun h ih =>
      have hwellFormed := hrun.accounts.wellFormed
      cases move_of_step h with
      | turn | idle | rest => exact ih
      | wave _ hbatch =>
          have hbegin : run.beginWave.beginBatch.Aligned := aligned_mark ih
          exact aligned_mark ((appends_of_wave hwellFormed ih hbatch).aligned hbegin)
      | round _ hbatch =>
          have hbegin : run.beginReview.beginBatch.Aligned := ih
          exact (appends_of_round hwellFormed ih hbatch).aligned hbegin

/-! ## Rule invocations -/

theorem wave_of_empty (hfresh : run.fresh = #[]) : run.wave = [] := by
  have hsorted : (#[] : Array ConceptId).toList.mergeSort run.keyAtMost = [] := List.mergeSort_nil
  unfold wave
  rw [hfresh, hsorted]
  rfl

theorem currentWave_of_expanding (hphase : run.phase = .expanding) :
    run.currentWave = run.wave := by
  rw [currentWave, hphase]

theorem currentWave_of_ne (hphase : run.phase ≠ .expanding) : run.currentWave = [] := by
  rw [currentWave]
  cases hcases : run.phase with
  | expanding => exact absurd hcases hphase
  | reviewing | settled => rfl

theorem currentRoundJobs_of_reviewing (hphase : run.phase = .reviewing) :
    run.currentRoundJobs registry = run.reviewJobs registry := by
  rw [currentRoundJobs, hphase]

theorem currentRoundJobs_of_ne (hphase : run.phase ≠ .reviewing) :
    run.currentRoundJobs registry = [] := by
  rw [currentRoundJobs]
  cases hcases : run.phase with
  | reviewing => exact absurd hcases hphase
  | expanding | settled => rfl

theorem batchJobs_of_expanding (hphase : run.phase = .expanding) :
    run.batchJobs registry = run.waveJobs registry run.wave := by
  rw [batchJobs, currentWaveJobs, currentWave_of_expanding hphase,
    currentRoundJobs_of_ne (by rw [hphase]; decide), List.append_nil]

theorem batchJobs_of_reviewing (hphase : run.phase = .reviewing) :
    run.batchJobs registry = run.reviewJobs registry := by
  rw [batchJobs, currentWaveJobs, currentWave_of_ne (by rw [hphase]; decide),
    currentRoundJobs_of_reviewing hphase]
  rfl

theorem batchJobs_of_settled (hphase : run.phase = .settled) : run.batchJobs registry = [] := by
  rw [batchJobs, currentWaveJobs, currentWave_of_ne (by rw [hphase]; decide),
    currentRoundJobs_of_ne (by rw [hphase]; decide)]
  rfl

/-- The invocations charged so far are the jobs of all batches so far. -/
theorem Course.ruleInvocations (h : Course registry settings seeds passed run) :
    run.stats.ruleInvocations = (passed.flatMap (batchJobs registry)).length := by
  induction h with
  | start h =>
      obtain ⟨offered, hoffered, hretry⟩ := start_ok h
      have hcharge := (sameCharge_of_foldlM sameCharge_of_receive hoffered).trans (retry_ok hretry).1
      exact hcharge.ruleInvocations
  | @step passed run next hrun hphase h ih =>
      rw [List.flatMap_append, List.length_append, ← ih, List.flatMap_singleton]
      cases move_of_step h with
      | turn hexpanding hfresh =>
          have hjobs : run.batchJobs registry = [] := by
            rw [batchJobs_of_expanding hexpanding, wave_of_empty hfresh]
            rfl
          rw [hjobs]
          rfl
      | wave hexpanding hbatch =>
          rw [batchJobs_of_expanding hexpanding]
          exact (runBatch_ok hbatch).2.2.1
      | idle hreviewing hjobs =>
          rw [batchJobs_of_reviewing hreviewing, hjobs]
          rfl
      | round hreviewing hbatch =>
          rw [batchJobs_of_reviewing hreviewing]
          exact (runBatch_ok hbatch).2.2.1
      | rest hsettled => exact absurd hsettled hphase

/-! ## Waves -/

/-- The waves so far and the fresh concepts list every stored concept exactly once;
those of the waves have been expanded, the fresh ones have just been admitted. -/
structure Tally (passed : List Run) (run : Run) : Prop where
  stored : (passed.flatMap currentWave ++ run.fresh.toList).Perm run.store.ids
  expanded : ∀ id ∈ passed.flatMap currentWave, run.stageOf? id = some .expanded
  admitted : ∀ id ∈ run.fresh, run.stageOf? id = some .admitted

theorem Appends.stageOf?_of_mem (h : Appends run next) (hrun : run.store.WellFormed)
    (haligned : run.Aligned) {id : ConceptId} (hid : id ∈ run.store.ids) :
    next.stageOf? id = run.stageOf? id :=
  h.stageOf?_of_lt (haligned ▸ hrun.index_lt hid)

/-- A fresh concept has just been admitted. -/
theorem Appends.stageOf?_of_fresh (h : Appends run.beginBatch next) (hrun : run.store.WellFormed)
    (hnext : next.store.WellFormed) (haligned : run.Aligned) {id : ConceptId}
    (hid : id ∈ next.fresh) : next.stageOf? id = some .admitted := by
  have hids := h.ids_of_beginBatch
  have hmem : id ∈ next.fresh.toList := Array.mem_toList_iff.2 hid
  have hnodup := hnext.nodup_ids
  rw [hids, List.nodup_append'] at hnodup
  have hnew : id ∉ run.store.ids := fun hold => hnodup.2.2 hold hmem
  have hbegin : run.beginBatch.Aligned := haligned
  apply h.stageOf?_of_le
  · rw [h.aligned hbegin]
    exact hnext.index_lt (hids ▸ List.mem_append_right _ hmem)
  · rw [hbegin]
    exact Nat.not_lt.1 fun hlt => hnew (hrun.mem_ids_of_index_lt hlt)

/-- Dropping repetitions removes nothing from a wave. -/
theorem wave_eq_mergeSort (hfresh : run.fresh.toList.Nodup) :
    run.wave = run.fresh.toList.mergeSort run.keyAtMost :=
  eraseReps_of_nodup ((List.mergeSort_perm _ _).nodup_iff.2 hfresh)

theorem wave_perm (hfresh : run.fresh.toList.Nodup) : run.wave.Perm run.fresh.toList := by
  rw [wave_eq_mergeSort hfresh]
  exact List.mergeSort_perm _ _

namespace Tally

theorem nodup (h : Tally passed run) (hrun : run.store.WellFormed) :
    (passed.flatMap currentWave ++ run.fresh.toList).Nodup :=
  h.stored.nodup_iff.2 hrun.nodup_ids

theorem nodup_fresh (h : Tally passed run) (hrun : run.store.WellFormed) :
    run.fresh.toList.Nodup :=
  (h.nodup hrun).of_append_right

theorem mem_ids_of_wave (h : Tally passed run) {id : ConceptId} (hid : id ∈ run.wave) :
    id ∈ run.store.ids :=
  h.stored.mem_iff.1 (List.mem_append_right _ (Array.mem_toList_iff.2 (mem_wave.1 hid)))

end Tally

/-- A wave takes the concepts in it, and no others, from one stage to the next. -/
theorem stageOf?_of_wave (hrun : run.store.WellFormed) (haligned : run.Aligned)
    (hbatch : run.beginWave.runBatch settings (run.beginWave.waveJobs registry run.wave) =
      .ok batch) {id : ConceptId} (hid : id ∈ run.store.ids) :
    batch.stageOf? id =
      (run.stageOf? id).map fun s => if id ∈ run.wave then s.latest .expanding else s := by
  have hbegin : run.beginWave.beginBatch.Aligned := aligned_mark haligned
  rw [(appends_of_wave hrun haligned hbatch).stageOf?_of_mem hrun hbegin hid]
  exact stageOf?_mark _ _ _ _

/-! ## The tally along a course -/

theorem tally_of_start (h : Run.start registry settings seeds = .ok run) : Tally [] run := by
  have hempty : (beforeSeeds registry seeds.length).store.WellFormed := Store.wellFormed_empty _
  have happends : Appends (beforeSeeds registry seeds.length).beginBatch run := appends_of_start h
  have hwellFormed := (accounts_of_start h).wellFormed
  exact
    { stored := by
        rw [happends.ids_of_beginBatch]
        exact .refl _
      expanded := fun _ hid => absurd hid List.not_mem_nil
      admitted := fun _ hid => happends.stageOf?_of_fresh hempty hwellFormed rfl hid }

theorem flatMap_currentWave_concat (passed : List Run) (hcurrent : run.currentWave = []) :
    (passed ++ [run]).flatMap currentWave = passed.flatMap currentWave := by
  rw [List.flatMap_append, List.flatMap_singleton, hcurrent, List.append_nil]

theorem Tally.of_wave (h : Tally passed run) (hrun : run.store.WellFormed)
    (haligned : run.Aligned) (hphase : run.phase = .expanding)
    (hbatch : run.beginWave.runBatch settings (run.beginWave.waveJobs registry run.wave) =
      .ok batch) : Tally (passed ++ [run]) (batch.mark .expanded run.wave) := by
  have happends := appends_of_wave hrun haligned hbatch
  have hbegin : run.beginWave.Aligned := aligned_mark haligned
  have hwellFormed := (carries_of_wave hrun hbatch).wellFormed
  have hids : batch.store.ids = run.store.ids ++ batch.fresh.toList := happends.ids_of_beginBatch
  have hwaves : (passed ++ [run]).flatMap currentWave = passed.flatMap currentWave ++ run.wave := by
    rw [List.flatMap_append, List.flatMap_singleton, currentWave_of_expanding hphase]
  have hperm : (passed.flatMap currentWave ++ run.wave).Perm run.store.ids :=
    ((wave_perm (h.nodup_fresh hrun)).append_left _).trans h.stored
  -- What has not been in a wave before the batch is not in this one either.
  have hdisjoint : ∀ id ∈ batch.fresh, id ∉ run.wave := by
    intro id hid hwave
    have hnodup := hwellFormed.nodup_ids
    rw [hids, List.nodup_append'] at hnodup
    exact hnodup.2.2 (h.mem_ids_of_wave hwave) (Array.mem_toList_iff.2 hid)
  exact
    { stored := by
        rw [hwaves]
        show (_ ++ batch.fresh.toList).Perm batch.store.ids
        rw [hids]
        exact hperm.append_right _
      expanded := by
        intro id hid
        rw [hwaves] at hid
        rw [stageOf?_mark, stageOf?_of_wave hrun haligned hbatch (hperm.mem_iff.1 hid)]
        rcases List.mem_append.1 hid with hearlier | hwave
        · have hnodup := h.nodup hrun
          rw [List.nodup_append'] at hnodup
          have hnot : id ∉ run.wave := fun hwave =>
            hnodup.2.2 hearlier (Array.mem_toList_iff.2 (mem_wave.1 hwave))
          simp [h.expanded id hearlier, hnot]
        · simp [h.admitted id (mem_wave.1 hwave), hwave, Stage.latest, Stage.rank]
      admitted := by
        intro id hid
        rw [stageOf?_mark, happends.stageOf?_of_fresh hrun hwellFormed hbegin hid]
        simp [hdisjoint id hid] }

theorem Tally.of_round (h : Tally passed run) (hrun : run.store.WellFormed)
    (haligned : run.Aligned) (hphase : run.phase ≠ .expanding) (hfresh : run.fresh = #[])
    (hbatch : run.beginReview.runBatch settings (run.reviewJobs registry) = .ok batch)
    (phase : Phase) : Tally (passed ++ [run]) { batch with phase := phase } := by
  have hbegin : run.beginReview.store.WellFormed := hrun
  have happends := appends_of_round hrun haligned hbatch
  have hwellFormed := (carries_of_round hrun hbatch).wellFormed
  have hids : batch.store.ids = run.store.ids ++ batch.fresh.toList := happends.ids_of_beginBatch
  have hwaves := flatMap_currentWave_concat passed (currentWave_of_ne hphase)
  have hperm : (passed.flatMap currentWave).Perm run.store.ids := by
    have hstored := h.stored
    rwa [hfresh, show (#[] : Array ConceptId).toList = [] from rfl, List.append_nil] at hstored
  exact
    { stored := by
        rw [hwaves]
        show (_ ++ batch.fresh.toList).Perm batch.store.ids
        rw [hids]
        exact hperm.append_right _
      expanded := by
        intro id hid
        rw [hwaves] at hid
        rw [← h.expanded id hid]
        exact happends.stageOf?_of_mem hbegin haligned (hperm.mem_iff.1 hid)
      admitted := fun id hid =>
        happends.stageOf?_of_fresh hbegin hwellFormed haligned hid }

theorem Course.tally (h : Course registry settings seeds passed run) : Tally passed run := by
  induction h with
  | start h => exact tally_of_start h
  | @step passed run next hrun hphase h ih =>
      have hreach := hrun.reachable
      have haccounts := hreach.accounts
      -- A step without a batch adds no wave and changes neither store nor lineages.
      have hidle : run.currentWave = [] → ∀ changed phase,
          Tally (passed ++ [run]) { run with changed := changed, phase := phase } := by
        intro hcurrent changed phase
        have hwaves := flatMap_currentWave_concat passed hcurrent
        exact ⟨hwaves ▸ ih.stored, hwaves ▸ ih.expanded, ih.admitted⟩
      cases move_of_step h with
      | turn hexpanding hfresh =>
          apply hidle
          rw [currentWave_of_expanding hexpanding]
          exact wave_of_empty hfresh
      | wave hexpanding hbatch =>
          exact ih.of_wave haccounts.wellFormed hreach.aligned hexpanding hbatch
      | idle hreviewing =>
          have hne : run.phase ≠ .expanding := by rw [hreviewing]; decide
          rw [← haccounts.idle hne]
          exact hidle (currentWave_of_ne hne) _ _
      | round hreviewing hbatch =>
          have hne : run.phase ≠ .expanding := by rw [hreviewing]; decide
          exact ih.of_round haccounts.wellFormed hreach.aligned hne (haccounts.idle hne) hbatch _
      | rest hsettled => exact absurd hsettled hphase

end Run

end ConceptExpansion
