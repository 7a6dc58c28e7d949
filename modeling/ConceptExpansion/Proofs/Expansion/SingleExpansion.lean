/-
# Every concept is expanded exactly once

Concepts come into a run as seeds, as products of a wave or of a round, or when a
deferred offer is tried again, but they are expanded by one route only: in the
wave that follows the batch which admitted them. No concept is in two waves, and
in a run that succeeds every stored concept has been in one. So each rule has
been asked once about each concept of its kind by waves, and beside that once
more by every round if it reads the model. That is the whole account of the rule
invocations of a run.
-/

import ConceptExpansion.Proofs.Run.Course
import ConceptExpansion.Proofs.Run.Jobs

namespace ConceptExpansion

namespace Run

variable {registry : Registry} {settings : Settings} {seeds : List Concept}
  {passed : List Run} {run next last batch : Run}

/-! ## Concepts only go forward -/

/-- No concept has fallen back to an earlier stage. -/
def Forward (run next : Run) : Prop :=
  ∀ id stage, run.stageOf? id = some stage →
    ∃ later, next.stageOf? id = some later ∧ stage.rank ≤ later.rank

namespace Forward

theorem of_lineage (h : next.lineage = run.lineage) : Forward run next := by
  intro id stage hstage
  refine ⟨stage, ?_, le_rfl⟩
  unfold stageOf? at hstage ⊢
  rwa [h]

theorem trans {a b c : Run} (hab : Forward a b) (hbc : Forward b c) : Forward a c := by
  intro id stage hstage
  obtain ⟨middle, hmiddle, hle⟩ := hab id stage hstage
  obtain ⟨later, hlater, hle'⟩ := hbc id middle hmiddle
  exact ⟨later, hlater, hle.trans hle'⟩

theorem mark (run : Run) (stage : Stage) (ids : List ConceptId) :
    Forward run (run.mark stage ids) := by
  intro id s hs
  rw [stageOf?_mark, hs]
  refine ⟨_, rfl, ?_⟩
  split
  · exact rank_le_latest s stage
  · exact le_rfl

end Forward

theorem Appends.forward (h : Appends run next) : Forward run next := by
  intro id stage hstage
  refine ⟨stage, ?_, le_rfl⟩
  obtain ⟨lineage, hlineage, -⟩ := Option.map_eq_some_iff.1 hstage
  rw [h.stageOf?_of_lt (Array.getElem?_eq_some_iff.1 hlineage).1, hstage]

theorem Reachable.forward (hrun : Reachable registry settings seeds run)
    (h : run.step registry settings = .ok next) : Forward run next := by
  have hwellFormed := hrun.accounts.wellFormed
  cases move_of_step h with
  | turn | idle | rest => exact .of_lineage rfl
  | @wave batch _ hbatch =>
      have hbegin : Forward run run.beginWave := .mark _ _ _
      have hbatch' : Forward run.beginWave batch :=
        (appends_of_wave hwellFormed hrun.aligned hbatch).forward
      exact (hbegin.trans hbatch').trans (.mark _ _ _)
  | round _ hbatch => exact (appends_of_round hwellFormed hrun.aligned hbatch).forward

/-! ## The waves of any run -/

/-- What is true of the waves of every run, also of one that will fail: no concept
is in two of them, so dropping repetitions from a wave removes nothing, a wave
finds its concepts just admitted and leaves them expanding until they are
expanded, and no step takes a concept back to an earlier stage. -/
structure WavesApart (registry : Registry) (settings : Settings) (passed : List Run)
    (run : Run) : Prop where
  nodup : ((passed ++ [run]).flatMap currentWave).Nodup
  whole : run.wave = run.fresh.toList.mergeSort run.keyAtMost
  admitted : ∀ id ∈ run.currentWave, run.stageOf? id = some .admitted
  expanding : ∀ {batch : Run},
    run.beginWave.runBatch settings (run.waveJobs registry run.wave) = .ok batch →
      ∀ id ∈ run.wave, batch.stageOf? id = some .expanding
  forward : ∀ {next : Run}, run.step registry settings = .ok next → Forward run next

theorem currentWave_sublist (run : Run) : run.currentWave.Sublist run.wave := by
  by_cases hphase : run.phase = .expanding
  · rw [currentWave_of_expanding hphase]
  · rw [currentWave_of_ne hphase]
    exact List.nil_sublist _

theorem Course.wavesApart (h : Course registry settings seeds passed run) :
    WavesApart registry settings passed run := by
  have hreach := h.reachable
  have hwellFormed := hreach.accounts.wellFormed
  have htally := h.tally
  have hfresh := htally.nodup_fresh hwellFormed
  refine
    { nodup := ?_
      whole := wave_eq_mergeSort hfresh
      admitted := fun id hid =>
        htally.admitted id (mem_wave.1 (run.currentWave_sublist.subset hid))
      expanding := ?_
      forward := hreach.forward }
  · rw [List.flatMap_append, List.flatMap_singleton]
    have hall : (passed.flatMap currentWave ++ run.wave).Nodup :=
      ((wave_perm hfresh).append_left _).nodup_iff.2 (htally.nodup hwellFormed)
    exact hall.sublist (run.currentWave_sublist.append_left _)
  · intro batch hbatch id hid
    rw [stageOf?_of_wave hwellFormed hreach.aligned hbatch (htally.mem_ids_of_wave hid),
      htally.admitted id (mem_wave.1 hid), Option.map_some, if_pos hid]
    rfl

/-! ## The waves and rounds of a run that succeeds -/

/-- What is true of a run that succeeds: every stored concept has been in one wave
and is expanded, the jobs of all waves are the pairs of a stored concept and a
rule of its kind, the jobs of a round are the pairs of a concept stored when the
round begins and a model-reading rule of its kind, and these are all the rule
invocations there were. -/
structure ExpandsOnce (registry : Registry) (passed : List Run) (last : Run) (model : Model) :
    Prop where
  waves : (passed.flatMap currentWave).Perm model.store.ids
  expanded : ∀ id ∈ model.store.ids, last.stageOf? id = some .expanded
  waveJobs : (passed.flatMap (currentWaveJobs registry)).Perm
    (model.store.jobs registry.rulesFor)
  roundJobs : ∀ round ∈ passed, round.phase = .reviewing →
    (round.reviewJobs registry).Perm (round.store.jobs registry.readingRulesFor)
  ruleInvocations : model.stats.ruleInvocations =
    (model.store.entries.toList.map fun entry =>
        (registry.rulesFor entry.concept.kind).length).sum +
      ((passed.filter fun round => round.phase = .reviewing).map fun round =>
        (round.store.entries.toList.map fun entry =>
          (registry.readingRulesFor entry.concept.kind).length).sum).sum

/-- The jobs of the waves so far are what there is to ask about the concepts in
them, as the store stands now. -/
theorem Course.waveJobs_eq (h : Course registry settings seeds passed run) :
    passed.flatMap (currentWaveJobs registry) =
      (passed.flatMap currentWave).flatMap (run.store.jobsOf registry.rulesFor) := by
  rw [List.flatMap_assoc]
  apply List.flatMap_congr
  intro earlier hearlier
  obtain ⟨before, hbefore, hgrows⟩ := h.of_mem hearlier
  rw [currentWaveJobs, waveJobs_eq_flatMap]
  apply List.flatMap_congr
  intro id hid
  have hwave := earlier.currentWave_sublist.subset hid
  exact (hgrows.jobsOf hbefore.reachable.accounts.wellFormed _
    (hbefore.tally.mem_ids_of_wave hwave)).symm

theorem length_currentRoundJobs (registry : Registry) (hrun : run.store.WellFormed) :
    (run.currentRoundJobs registry).length =
      if run.phase = .reviewing then
        (run.store.entries.toList.map fun entry =>
          (registry.readingRulesFor entry.concept.kind).length).sum
      else 0 := by
  by_cases hphase : run.phase = .reviewing
  · rw [currentRoundJobs_of_reviewing hphase, if_pos hphase,
      (reviewJobs_perm registry hrun).length_eq, Store.length_jobs]
  · rw [currentRoundJobs_of_ne hphase, if_neg hphase, List.length_nil]

theorem Course.length_rounds (h : Course registry settings seeds passed run) :
    (passed.flatMap (currentRoundJobs registry)).length =
      ((passed.filter fun round => round.phase = .reviewing).map fun round =>
        (round.store.entries.toList.map fun entry =>
          (registry.readingRulesFor entry.concept.kind).length).sum).sum := by
  have hlengths : passed.map (fun round => (round.currentRoundJobs registry).length) =
      passed.map fun round =>
        if round.phase = .reviewing then
          (round.store.entries.toList.map fun entry =>
            (registry.readingRulesFor entry.concept.kind).length).sum
        else 0 := by
    apply List.map_congr_left
    intro round hround
    obtain ⟨before, hbefore, -⟩ := h.of_mem hround
    exact length_currentRoundJobs registry hbefore.reachable.accounts.wellFormed
  rw [List.length_flatMap, hlengths, List.sum_map_ite, List.map_const', List.sum_replicate,
    smul_zero, add_zero]

theorem Course.expandsOnce {model : Model} (h : Course registry settings seeds passed last)
    (hphase : last.phase = .settled) (hfinish : last.finish = .ok model) :
    ExpandsOnce registry passed last model := by
  have haccounts := h.reachable.accounts
  obtain ⟨-, hstore, -, hstats⟩ := finish_ok hfinish
  have htally := h.tally
  have hwaves : (passed.flatMap currentWave).Perm last.store.ids := by
    have hstored := htally.stored
    rwa [haccounts.idle (by rw [hphase]; decide), show (#[] : Array ConceptId).toList = [] from rfl,
      List.append_nil] at hstored
  have hjobs : (passed.flatMap (currentWaveJobs registry)).Perm
      (last.store.jobs registry.rulesFor) := by
    rw [h.waveJobs_eq, ← haccounts.wellFormed.flatMap_jobsOf]
    exact hwaves.flatMap_right _
  have hcharged : (passed.flatMap (batchJobs registry)).length =
      (passed.flatMap (currentWaveJobs registry)).length +
        (passed.flatMap (currentRoundJobs registry)).length := by
    rw [← List.length_append]
    exact (List.flatMap_append_perm passed _ _).symm.length_eq
  rw [← hstore] at hwaves hjobs
  refine
    { waves := hwaves
      expanded := fun id hid => htally.expanded id (hwaves.mem_iff.2 hid)
      waveJobs := hjobs
      roundJobs := ?_
      ruleInvocations := ?_ }
  · intro round hround _
    obtain ⟨before, hbefore, -⟩ := h.of_mem hround
    exact reviewJobs_perm registry hbefore.reachable.accounts.wellFormed
  · rw [hstats]
    show last.stats.ruleInvocations = _
    rw [h.ruleInvocations, hcharged, hjobs.length_eq, Store.length_jobs, h.length_rounds]

end Run

/-- In every run each concept enters at most one wave and only goes forward. In a
run that succeeds each stored concept enters exactly one, and the rule
invocations are one for every rule of every stored concept and, in each round,
one more for every model-reading rule of every concept stored by then. -/
theorem expand_once (registry : Registry) (settings : Settings) (seeds : List Concept) :
    (∀ passed run, Run.Course registry settings seeds passed run →
      Run.WavesApart registry settings passed run) ∧
    ∀ model, registry.expand settings seeds = .ok model →
      ∃ passed last, Run.Course registry settings seeds passed last ∧
        last.phase = .settled ∧ last.finish = .ok model ∧
        Run.ExpandsOnce registry passed last model := by
  constructor
  · intro passed run hcourse
    exact hcourse.wavesApart
  · intro model h
    obtain ⟨passed, last, hcourse, hphase, hfinish⟩ := Run.course_of_expand h
    exact ⟨passed, last, hcourse, hphase, hfinish, hcourse.expandsOnce hphase hfinish⟩

/-! ## A workshop -/

namespace Workshop

/-- The number of a part. -/
def number (part : Concept) : Int64 :=
  ((part.field? 0).bind Value.int?).getD 0

/-- The part with this number. -/
def part (n : Int64) : Concept :=
  { kind := "P", fields := [.int n] }

/-- The label of a part, which refers to the part by its key. -/
def label (n : Int64) : Concept :=
  { kind := "L", fields := [(part n).reference] }

/-- Every part but the last prints the label of the next one, whether there is such
a part yet or not. -/
def print : Rule where
  name := "print"
  expand concept _ := .ok (if number concept < 3 then [label (number concept + 1)] else [])

/-- Every part but the last is followed by another one as soon as its label is
stored. -/
def follow : Rule where
  name := "follow"
  readsModel := true
  expand concept store :=
    .ok (if number concept < 3 && store.contains (label (number concept)).key then
      [part (number concept + 1)] else [])

/-- Parts and their labels. -/
def registry : Registry where
  schema := .ofKinds [{ name := "L", keyFields := ["part"] }, { name := "P", keyFields := ["n"] }]
  rules := .ofList [("P", [print, follow])]

/-- The third part comes in by a round and its label waits for it, but each of the
three parts is expanded once, by two rules, and two rounds ask one of them again
of two parts and of three: eleven invocations. -/
theorem expand_workshop_once : ∃ model, registry.expand {} [part 1, part 2] = .ok model ∧
    (model.store.size = 5 ∧ model.stats.ruleInvocations = 11) ∧
    ∃ passed last, Run.Course registry {} [part 1, part 2] passed last ∧
      last.phase = .settled ∧ last.finish = .ok model ∧
      Run.ExpandsOnce registry passed last model := by
  obtain ⟨model, hmodel, hcheck⟩ := Run.exists_finish_of_after registry {} [part 1, part 2] 7
    (fun model => model.store.size = 5 ∧ model.stats.ruleInvocations = 11) (by cbv)
  exact ⟨model, hmodel, of_decide_eq_true hcheck, (expand_once registry {} _).2 model hmodel⟩

end Workshop

end ConceptExpansion
