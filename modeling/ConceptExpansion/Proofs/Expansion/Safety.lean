/-
# No expansion panics

The checked run goes through the same motions as the run: it takes in the seeds, makes
steps, and yields a model where it is settled. Every condition that the run relies on is
checked on the way, down to single accesses. `expandChecked_eq` says that none of them is
ever violated, whatever the rules produce, the settings are and the seeds hold.

Two invariants carry this. A state is `Sound`: its store is well-formed, so that indexes
lead to places that exist, and what waits fits the schema, so that the store has no
reason to refuse it but a conflict or want of room. And by the tally along a course the
concepts of a wave have just been admitted, so that marking them never takes one back.
-/

import ConceptExpansion.Proofs.Expansion.Termination
import ConceptExpansion.Proofs.Run.Checked

namespace ConceptExpansion

namespace Run

variable (registry : Registry) (settings : Settings)

/-! ## The checked run -/

/-- Takes note that a concept has come as far as `stage`, which it must not have passed. -/
def advanceChecked (stage : Stage) (run : Run) (id : ConceptId) : Except Halt Run :=
  match run.stageOf? id with
  | none => .ok run
  | some current =>
    if current.rank ≤ stage.rank then .ok (run.mark stage [id])
    else .error (.panicked (.regressed id current stage))

/-- Takes note that the concepts have come as far as `stage`. -/
def markChecked (run : Run) (stage : Stage) (ids : List ConceptId) : Except Halt Run :=
  ids.foldlM (advanceChecked stage) run

/-- Expands the concepts that were admitted last. -/
def expandWaveChecked (run : Run) : Except Halt Run := do
  let counted := { run with stats := { run.stats with waves := run.stats.waves + 1 } }
  let begun ← counted.markChecked .expanding run.wave
  let batch ← begun.runBatchChecked settings (begun.waveJobs registry run.wave)
  batch.markChecked .expanded run.wave

/-- The jobs of a round of review, for concepts that are looked up by their kind. -/
def reviewJobsChecked (run : Run) : Except Halt (List Job) := do
  let groups ← registry.modelReadingKinds.mapM fun kind => do
    let entries ← inRange (run.store.ofKindChecked kind)
    return entries.flatMap fun entry =>
      (registry.readingRulesFor kind).map fun rule => ⟨entry.id, rule⟩
  return groups.flatten

/-- Asks the model-reading rules again. -/
def reviewChecked (run : Run) : Except Halt Run := do
  match ← run.reviewJobsChecked registry with
  | [] => return { run with fresh := #[], changed := false, phase := .settled }
  | job :: jobs =>
    let batch ← run.beginReview.runBatchChecked settings (job :: jobs)
    return { batch with phase := if batch.changed then .expanding else .settled }

/-- One step of a run. -/
def stepChecked (run : Run) : Except Halt Run :=
  match run.phase with
  | .expanding =>
    if run.fresh.isEmpty then .ok { run with phase := .reviewing }
    else run.expandWaveChecked registry settings
  | .reviewing => run.reviewChecked registry settings
  | .settled => .ok run

/-- The state after this many steps. -/
def stepsChecked (run : Run) : Nat → Except Halt Run
  | 0 => .ok run
  | count + 1 => do
    let next ← run.stepChecked registry settings
    next.stepsChecked count

/-- The state of a run once its seeds have been offered. -/
def startChecked (seeds : List Concept) : Except Halt Run := do
  let offered ← (Offer.ofSeeds seeds).foldlM (receiveChecked settings)
    (beforeSeeds registry seeds.length)
  offered.retryChecked settings

/-- The model of a settled run. -/
def finishChecked (run : Run) : Except Halt Model :=
  match run.loose? with
  | some error => .error (.failed error)
  | none => do
    let order ← inRange run.store.precedenceChecked
    return { store := run.store, order, stats := { run.stats with concepts := run.store.size } }

end Run

/-- Expands seeds under a registry, with every condition checked and with this many
steps. -/
def Registry.expandChecked (registry : Registry) (settings : Settings) (seeds : List Concept)
    (count : Nat) : Except Halt Model := do
  let started ← Run.startChecked registry settings seeds
  let last ← started.stepsChecked registry settings count
  last.finishChecked

namespace Run

variable {registry : Registry} {settings : Settings} {seeds : List Concept}
  {run next batch : Run} {stage : Stage} {ids : List ConceptId}

/-! ## Marking -/

/-- Marking concepts that are stored and have not passed the stage violates nothing. -/
theorem markChecked_eq
    (h : ∀ id ∈ ids, ∃ current, run.stageOf? id = some current ∧ current.rank ≤ stage.rank) :
    run.markChecked stage ids = .ok (run.mark stage ids) := by
  induction ids generalizing run with
  | nil => rfl
  | cons first ids ih =>
      obtain ⟨current, hcurrent, hle⟩ := h first List.mem_cons_self
      have hfirst : advanceChecked stage run first = .ok (run.mark stage [first]) := by
        unfold advanceChecked
        rw [hcurrent]
        exact if_pos hle
      have hrest : ∀ id ∈ ids, ∃ current, (run.mark stage [first]).stageOf? id = some current ∧
          current.rank ≤ stage.rank := by
        intro id hid
        obtain ⟨current, hcurrent, hle⟩ := h id (List.mem_cons_of_mem _ hid)
        rw [stageOf?_mark, hcurrent]
        refine ⟨_, rfl, ?_⟩
        split
        · show (current.latest stage).rank ≤ stage.rank
          unfold Stage.latest
          rw [if_pos hle]
        · exact hle
      unfold markChecked
      rw [List.foldlM_cons, bind_of_eq_ok hfirst, mark_cons]
      exact ih hrest

/-- The concepts of a wave have just been admitted. -/
theorem Reachable.stageOf?_of_mem_wave (h : Reachable registry settings seeds run)
    {id : ConceptId} (hid : id ∈ run.wave) : run.stageOf? id = some .admitted := by
  obtain ⟨passed, hcourse⟩ := h.exists_course
  exact hcourse.tally.admitted id (mem_wave.1 hid)

/-- After the batch they are being expanded. -/
theorem Reachable.stageOf?_after_wave (h : Reachable registry settings seeds run)
    (hbatch : run.beginWave.runBatch settings (run.beginWave.waveJobs registry run.wave) =
      .ok batch) {id : ConceptId} (hid : id ∈ run.wave) : batch.stageOf? id = some .expanding := by
  obtain ⟨passed, hcourse⟩ := h.exists_course
  have hstored := hcourse.tally.mem_ids_of_wave hid
  rw [stageOf?_of_wave h.accounts.wellFormed h.aligned hbatch hstored,
    h.stageOf?_of_mem_wave hid, Option.map_some, if_pos hid]
  rfl

/-! ## Steps -/

theorem mirrors_expandWave (hreach : Reachable registry settings seeds run) (h : run.Sound)
    (hphase : run.phase = .expanding) (hfresh : run.fresh ≠ #[]) :
    Mirrors Sound (run.expandWaveChecked registry settings) (run.step registry settings) := by
  have hbegin : markChecked { run with stats := { run.stats with waves := run.stats.waves + 1 } }
      .expanding run.wave = .ok run.beginWave :=
    markChecked_eq fun id hid => ⟨.admitted, hreach.stageOf?_of_mem_wave hid, by decide⟩
  have hsound : run.beginWave.Sound := ⟨h.wellFormed, h.waiting⟩
  rw [step_wave hphase hfresh]
  unfold expandWaveChecked
  dsimp only
  rw [bind_of_eq_ok hbegin]
  refine (mirrors_runBatch hsound).bind fun batch hbatch hnext => ?_
  have hmarked : batch.markChecked .expanded run.wave = .ok (batch.mark .expanded run.wave) :=
    markChecked_eq fun id hid => ⟨.expanding, hreach.stageOf?_after_wave hbatch hid, by decide⟩
  rw [hmarked]
  exact .ok ⟨hnext.wellFormed, hnext.waiting⟩

theorem reviewJobsChecked_eq (h : run.Sound) :
    run.reviewJobsChecked registry = .ok (run.reviewJobs registry) := by
  unfold reviewJobsChecked reviewJobs
  rw [List.flatMap_def, bind_of_eq_ok (mapM_eq_ok fun kind _ => ?_)]
  · rfl
  · rw [h.wellFormed.ofKindChecked_eq]
    rfl

theorem mirrors_review (h : run.Sound) (hphase : run.phase = .reviewing) :
    Mirrors Sound (run.reviewChecked registry settings) (run.step registry settings) := by
  unfold reviewChecked
  rw [bind_of_eq_ok (reviewJobsChecked_eq h)]
  by_cases hjobs : run.reviewJobs registry = []
  · rw [step_idle hphase hjobs, hjobs]
    exact .ok ⟨h.wellFormed, h.waiting⟩
  · rw [step_round hphase hjobs]
    cases hcons : run.reviewJobs registry with
    | nil => exact absurd hcons hjobs
    | cons job jobs =>
        have hsound : run.beginReview.Sound := ⟨h.wellFormed, h.waiting⟩
        refine (mirrors_runBatch hsound).bind fun batch _ hnext => ?_
        exact .ok ⟨hnext.wellFormed, hnext.waiting⟩

theorem mirrors_step (hreach : Reachable registry settings seeds run) (h : run.Sound) :
    Mirrors (fun next => Reachable registry settings seeds next ∧ next.Sound)
      (run.stepChecked registry settings) (run.step registry settings) := by
  have hmirrors : Mirrors Sound (run.stepChecked registry settings)
      (run.step registry settings) := by
    unfold stepChecked
    cases hphase : run.phase with
    | expanding =>
        dsimp only
        split
        · next hempty =>
            rw [step_turn hphase (Array.isEmpty_iff.1 hempty)]
            exact .ok ⟨h.wellFormed, h.waiting⟩
        · next hfresh =>
            exact mirrors_expandWave hreach h hphase fun hempty => hfresh (Array.isEmpty_iff.2 hempty)
    | reviewing => exact mirrors_review h hphase
    | settled =>
        rw [step_of_settled hphase]
        exact .ok h
  exact hmirrors.imp fun next hnext hsound => ⟨.step hreach hnext, hsound⟩

/-- A number of steps is checked as each of them is. -/
theorem mirrors_steps (hreach : Reachable registry settings seeds run) (h : run.Sound)
    (count : Nat) :
    Mirrors (fun next => Reachable registry settings seeds next ∧ next.Sound)
      (run.stepsChecked registry settings count) (run.steps registry settings count) := by
  induction count generalizing run with
  | zero => exact .ok ⟨hreach, h⟩
  | succ count ih =>
      rw [steps_succ]
      exact (mirrors_step hreach h).bind fun next _ hnext => ih hnext.1 hnext.2

theorem mirrors_start (registry : Registry) (settings : Settings) (seeds : List Concept) :
    Mirrors (fun started => Reachable registry settings seeds started ∧ started.Sound)
      (startChecked registry settings seeds) (Run.start registry settings seeds) := by
  have hempty : (beforeSeeds registry seeds.length).Sound :=
    ⟨Store.wellFormed_empty _, fun _ hoffer => absurd hoffer List.not_mem_nil⟩
  have hmirrors : Mirrors Sound (startChecked registry settings seeds)
      (Run.start registry settings seeds) :=
    (mirrors_receiveAll hempty _).bind fun _ _ hoffered => mirrors_retry hoffered
  exact hmirrors.imp fun started hstart hsound => ⟨.start hstart, hsound⟩

theorem notRefused_of_loose? {error : ExpansionError} (h : run.loose? = some error) :
    error.NotRefused := by
  obtain ⟨concept, origin, target, rfl⟩ := unresolved_of_loose? h
  exact nofun

theorem mirrors_finish (h : run.Sound) :
    Mirrors (fun _ => True) run.finishChecked run.finish := by
  unfold finishChecked finish
  cases hloose : run.loose? with
  | some error => exact .failed (notRefused_of_loose? hloose)
  | none =>
      have horder : inRange run.store.precedenceChecked = .ok run.store.precedence := by
        rw [h.wellFormed.precedenceChecked_eq]
        rfl
      dsimp only
      rw [bind_of_eq_ok horder]
      exact .ok trivial

/-- However many steps it is given, the checked expansion mirrors the run. -/
theorem mirrors_after (registry : Registry) (settings : Settings) (seeds : List Concept)
    (count : Nat) :
    Mirrors (fun _ => True) (registry.expandChecked settings seeds count)
      (after registry settings seeds count >>= finish) := by
  have hbind : (after registry settings seeds count >>= finish) =
      Run.start registry settings seeds >>= fun started =>
        started.steps registry settings count >>= finish := bind_assoc ..
  rw [hbind]
  refine (mirrors_start registry settings seeds).bind fun started _ hstarted => ?_
  refine (mirrors_steps hstarted.1 hstarted.2 count).bind fun last _ hlast => ?_
  exact mirrors_finish hlast.2

/-- With enough steps a run has ended as the expansion does. -/
theorem exists_enough (registry : Registry) (settings : Settings) (seeds : List Concept) :
    ∃ enough, ∀ count, enough ≤ count →
      (after registry settings seeds count >>= finish) = registry.expand settings seeds := by
  cases hstart : Run.start registry settings seeds with
  | error error =>
      refine ⟨0, fun count _ => ?_⟩
      have hafter : after registry settings seeds count = .error error := bind_of_eq_error hstart _
      rw [bind_of_eq_error hafter, expand_of_after_error hafter]
  | ok started =>
      obtain ⟨enough, henough⟩ := exists_steps_eq_toFixpoint registry settings started
      refine ⟨enough, fun count hle => ?_⟩
      rw [(Reachable.start hstart).expand_eq, ← henough count hle]
      exact congrArg (· >>= finish) (bind_of_eq_ok hstart _)

end Run

/-- The checked expansion never panics, however many steps it is given, and with enough
of them it is the expansion: it yields the same model or fails with the same error. In
particular no expansion fails because the store has refused a checked concept. -/
theorem expandChecked_eq (registry : Registry) (settings : Settings) (seeds : List Concept) :
    (∀ count panic, registry.expandChecked settings seeds count ≠ .error (.panicked panic)) ∧
    (∃ enough, ∀ count, enough ≤ count → registry.expandChecked settings seeds count =
      (registry.expand settings seeds).mapError Halt.failed) ∧
    ∀ cause, registry.expand settings seeds ≠ .error (.refused cause) := by
  obtain ⟨enough, henough⟩ := Run.exists_enough registry settings seeds
  have hmirrors := Run.mirrors_after registry settings seeds
  refine ⟨fun count => (hmirrors count).not_panicked, ⟨enough, fun count hcount => ?_⟩, ?_⟩
  · rw [(hmirrors count).eq, henough count hcount]
  · intro cause hrefused
    exact (hmirrors enough).notRefused ((henough enough le_rfl).trans hrefused) cause rfl

end ConceptExpansion
