/-
# The states that a run passes through

`Reachable` names every state of a run over some seeds, and `Move` the ways in
which one state follows another. Three facts hold of every reachable state.
Every seed is held. Every stored concept has either just been admitted or has
been expanded: there was a wave in which every rule of its kind was asked about
it as it stood then, and all the answers are held. Outside a wave nothing counts
as just admitted.

An expansion that succeeds ends in a reachable state that is settled and in
which no offer waits, so whatever it holds is stored.
-/

import ConceptExpansion.Proofs.Run.Batch
import ConceptExpansion.Run.Expansion

namespace ConceptExpansion.Run

variable {registry : Registry} {settings : Settings} {seeds : List Concept} {run next last : Run}

/-! ## Steps -/

/-- Without fresh concepts a run turns from waves to review. -/
theorem step_turn (hphase : run.phase = .expanding) (hfresh : run.fresh = #[]) :
    run.step registry settings = .ok { run with phase := .reviewing } := by
  rw [step, hphase]
  exact if_pos (Array.isEmpty_iff.2 hfresh)

/-- With fresh concepts it goes on with a wave. -/
theorem step_wave (hphase : run.phase = .expanding) (hfresh : run.fresh ≠ #[]) :
    run.step registry settings =
      run.beginWave.runBatch settings (run.beginWave.waveJobs registry run.wave) >>=
        fun batch => .ok (batch.mark .expanded run.wave) := by
  rw [step, hphase, expandWave]
  refine (if_neg (fun hempty => hfresh (Array.isEmpty_iff.1 hempty))).trans ?_
  cases run.beginWave.runBatch settings (run.beginWave.waveJobs registry run.wave) <;> rfl

/-- Without jobs for a round review settles the run. -/
theorem step_idle (hphase : run.phase = .reviewing) (hjobs : run.reviewJobs registry = []) :
    run.step registry settings =
      .ok { run with fresh := #[], changed := false, phase := .settled } := by
  rw [step, hphase]
  dsimp only
  rw [review, hjobs]

/-- With jobs there is a round, which settles the run if it changes nothing. -/
theorem step_round (hphase : run.phase = .reviewing) (hjobs : run.reviewJobs registry ≠ []) :
    run.step registry settings =
      run.beginReview.runBatch settings (run.reviewJobs registry) >>=
        fun batch => .ok { batch with phase := if batch.changed then .expanding else .settled } := by
  rw [step, hphase]
  dsimp only
  rw [review]
  cases hlisted : run.reviewJobs registry with
  | nil => exact absurd hlisted hjobs
  | cons job jobs =>
      dsimp only
      cases run.beginReview.runBatch settings (job :: jobs) <;> rfl

/-! ## Moves -/

/-- The ways in which a state follows another. -/
inductive Move (registry : Registry) (settings : Settings) (run : Run) : Run → Prop
  | turn (hphase : run.phase = .expanding) (hfresh : run.fresh = #[]) :
      Move registry settings run { run with phase := .reviewing }
  | wave {batch : Run} (hphase : run.phase = .expanding)
      (hbatch : run.beginWave.runBatch settings (run.beginWave.waveJobs registry run.wave) =
        .ok batch) :
      Move registry settings run (batch.mark .expanded run.wave)
  | idle (hphase : run.phase = .reviewing) (hjobs : run.reviewJobs registry = []) :
      Move registry settings run { run with fresh := #[], changed := false, phase := .settled }
  | round {batch : Run} (hphase : run.phase = .reviewing)
      (hbatch : run.beginReview.runBatch settings (run.reviewJobs registry) = .ok batch) :
      Move registry settings run
        { batch with phase := if batch.changed then .expanding else .settled }
  | rest (hphase : run.phase = .settled) : Move registry settings run run

theorem move_of_step (h : run.step registry settings = .ok next) :
    Move registry settings run next := by
  cases hphase : run.phase with
  | expanding =>
      by_cases hfresh : run.fresh = #[]
      · rw [step_turn hphase hfresh] at h
        cases h
        exact .turn hphase hfresh
      · rw [step_wave hphase hfresh] at h
        obtain ⟨batch, hbatch, h⟩ := exists_of_bind_eq_ok h
        cases h
        exact .wave hphase hbatch
  | reviewing =>
      by_cases hjobs : run.reviewJobs registry = []
      · rw [step_idle hphase hjobs] at h
        cases h
        exact .idle hphase hjobs
      · rw [step_round hphase hjobs] at h
        obtain ⟨batch, hbatch, h⟩ := exists_of_bind_eq_ok h
        cases h
        exact .round hphase hbatch
  | settled =>
      rw [step_of_settled hphase] at h
      cases h
      exact .rest hphase

/-- A wave is a batch that begins where the run stands. -/
theorem carries_of_wave {batch : Run} (hrun : run.store.WellFormed)
    (hbatch : run.beginWave.runBatch settings (run.beginWave.waveJobs registry run.wave) =
      .ok batch) : Carries run.beginWave.beginBatch batch := by
  have hbegin : run.beginWave.store.WellFormed := hrun
  exact (carries_of_runBatch hbegin hbatch).1

/-- A round of review is a batch that begins where the run stands. -/
theorem carries_of_round {batch : Run} (hrun : run.store.WellFormed)
    (hbatch : run.beginReview.runBatch settings (run.reviewJobs registry) = .ok batch) :
    Carries run.beginReview.beginBatch batch := by
  have hbegin : run.beginReview.store.WellFormed := hrun
  exact (carries_of_runBatch hbegin hbatch).1

theorem phase_of_wave {batch : Run} (hphase : run.phase = .expanding)
    (hbatch : run.beginWave.runBatch settings (run.beginWave.waveJobs registry run.wave) =
      .ok batch) : batch.phase = .expanding := by
  have hkept : batch.phase = run.phase := (runBatch_ok hbatch).2.1
  rw [hkept, hphase]

/-- A round that does not go back to expanding has changed nothing. -/
theorem unchanged_of_round {batch : Run}
    (h : (if batch.changed then Phase.expanding else .settled) ≠ .expanding) :
    batch.changed = false := by
  cases hchanged : batch.changed with
  | false => rfl
  | true => exact absurd (if_pos hchanged) h

/-- From one state to the next stores stay well-formed and only grow, and what is
held is held from then on. -/
theorem keeps_of_move (hrun : run.store.WellFormed) (h : Move registry settings run next) :
    next.store.WellFormed ∧ run.store.Grows next.store ∧
      ∀ {concept : Concept}, run.Holds concept → next.Holds concept := by
  cases h with
  | turn | idle | rest => exact ⟨hrun, .refl _, id⟩
  | wave _ hbatch =>
      have hcarries := carries_of_wave hrun hbatch
      exact ⟨hcarries.wellFormed, hcarries.grows, hcarries.holds⟩
  | round _ hbatch =>
      have hcarries := carries_of_round hrun hbatch
      exact ⟨hcarries.wellFormed, hcarries.grows, hcarries.holds⟩

/-! ## Reachable states -/

/-- The states that a run over these seeds passes through. -/
inductive Reachable (registry : Registry) (settings : Settings) (seeds : List Concept) :
    Run → Prop
  | start {run : Run} (h : Run.start registry settings seeds = .ok run) :
      Reachable registry settings seeds run
  | step {run next : Run} (hrun : Reachable registry settings seeds run)
      (h : run.step registry settings = .ok next) : Reachable registry settings seeds next

/-- A run that settles does so in a state that it reaches. -/
theorem Reachable.toFixpoint (hrun : Reachable registry settings seeds run)
    (h : run.toFixpoint registry settings = .ok last) :
    Reachable registry settings seeds last ∧ last.phase = .settled := by
  fun_induction Run.toFixpoint registry settings run with
  | case1 run hphase =>
      cases h
      exact ⟨hrun, hphase⟩
  | case2 run hphase error hstep => cases h
  | case3 run hphase next hstep ih => exact ih (.step hrun hstep) h

/-- There was a wave with this stored concept in it: every rule of its kind was
asked about the concept as it stood then, and the run holds all the answers. -/
def Expanded (registry : Registry) (settings : Settings) (seeds : List Concept) (run : Run)
    (id : ConceptId) : Prop :=
  ∃ before earlier,
    Reachable registry settings seeds before ∧ before.phase = .expanding ∧ id ∈ before.wave ∧
    before.store.get? id = some earlier ∧ before.store.Grows run.store ∧
    ∀ rule ∈ registry.rulesFor earlier.concept.kind,
      ∃ products, rule.expand earlier.concept before.store = .ok products ∧
        ∀ product ∈ products, run.Holds product

/-- What is true of every state that a run over these seeds passes through. -/
structure Accounts (registry : Registry) (settings : Settings) (seeds : List Concept)
    (run : Run) : Prop where
  wellFormed : run.store.WellFormed
  schema : run.store.schema = registry.schema
  idle : run.phase ≠ .expanding → run.fresh = #[]
  offered : ∀ seed ∈ seeds, run.Holds seed
  expanded : ∀ {id : ConceptId} {entry : Entry}, run.store.get? id = some entry →
    id ∈ run.fresh ∨ Expanded registry settings seeds run id

theorem Expanded.keeps {id : ConceptId} (h : Expanded registry settings seeds run id)
    (hgrows : run.store.Grows next.store)
    (hholds : ∀ {concept : Concept}, run.Holds concept → next.Holds concept) :
    Expanded registry settings seeds next id := by
  obtain ⟨before, earlier, hbefore, hphase, hwave, hget, hgrown, hrules⟩ := h
  refine ⟨before, earlier, hbefore, hphase, hwave, hget, hgrown.trans hgrows, ?_⟩
  intro rule hrule
  obtain ⟨products, hproducts, hheld⟩ := hrules rule hrule
  exact ⟨products, hproducts, fun product hproduct => hholds (hheld product hproduct)⟩

theorem mem_ofSeeds {offer : Offer} : offer ∈ Offer.ofSeeds seeds ↔
    ∃ position, ∃ seed, seeds[position]? = some seed ∧
      offer = { concept := seed, origin := .seed position, parent := none, depth := 0 } := by
  unfold Offer.ofSeeds
  rw [List.mem_mergeSort, List.mem_map]
  constructor
  · rintro ⟨⟨seed, position⟩, hmem, rfl⟩
    exact ⟨position, seed, List.mem_zipIdx_iff_getElem?.1 hmem, rfl⟩
  · rintro ⟨position, seed, hget, rfl⟩
    exact ⟨(seed, position), List.mem_zipIdx_iff_getElem?.2 hget, rfl⟩

/-- A run begins with the seeds received and the deferred ones tried again. -/
theorem start_ok (h : Run.start registry settings seeds = .ok run) :
    ∃ offered, (Offer.ofSeeds seeds).foldlM (receive settings)
      (beforeSeeds registry seeds.length) = .ok offered ∧ offered.retry settings = .ok run :=
  exists_of_bind_eq_ok h

theorem phase_of_start (h : Run.start registry settings seeds = .ok run) :
    run.phase = .expanding := by
  obtain ⟨offered, hoffered, hretry⟩ := start_ok h
  exact ((sameCharge_of_foldlM sameCharge_of_receive hoffered).trans (retry_ok hretry).1).phase

theorem accounts_of_start (h : Run.start registry settings seeds = .ok run) :
    Accounts registry settings seeds run := by
  obtain ⟨offered, hoffered, hretry⟩ := start_ok h
  have hempty : (beforeSeeds registry seeds.length).store.WellFormed :=
    Store.wellFormed_empty _
  obtain ⟨hfirst, hseeds⟩ := carries_of_foldlM carries_of_receive hempty hoffered
  have hrest := carries_of_retry hfirst.wellFormed hretry
  have hcarries := hfirst.trans hrest
  exact
    { wellFormed := hcarries.wellFormed
      schema := hcarries.grows.schema
      idle := fun hphase => absurd (phase_of_start h) hphase
      offered := by
        intro seed hseed
        obtain ⟨position, hposition⟩ := List.mem_iff_getElem?.1 hseed
        exact hrest.holds (hseeds _ (mem_ofSeeds.2 ⟨position, seed, hposition, rfl⟩))
      expanded := by
        intro id entry hget
        rcases hcarries.arrived hget with ⟨earlier, hearlier⟩ | hfresh
        · cases hearlier
        · exact .inl hfresh }

theorem expanded_of_wave {batch : Run} (hreach : Reachable registry settings seeds run)
    (hrun : run.store.WellFormed) (hphase : run.phase = .expanding)
    (hbatch : run.beginWave.runBatch settings (run.beginWave.waveJobs registry run.wave) =
      .ok batch)
    {id : ConceptId} {entry : Entry} (hid : id ∈ run.fresh)
    (hentry : run.store.get? id = some entry) :
    Expanded registry settings seeds batch id := by
  have hbegin : run.beginWave.store.WellFormed := hrun
  obtain ⟨hcarries, hanswers⟩ := carries_of_runBatch hbegin hbatch
  have hwave : id ∈ run.wave := mem_wave.2 hid
  refine ⟨run, entry, hreach, hphase, hwave, hentry, hcarries.grows, fun rule hrule => ?_⟩
  exact hanswers ⟨id, rule⟩ (mem_waveJobs.2 ⟨hwave, entry, hentry, hrule⟩) hentry

namespace Accounts

/-- Outside a wave every stored concept has been expanded. -/
theorem expanded_of_idle (haccounts : Accounts registry settings seeds run)
    (hphase : run.phase ≠ .expanding) {id : ConceptId} {entry : Entry}
    (hentry : run.store.get? id = some entry) : Expanded registry settings seeds run id := by
  rcases haccounts.expanded hentry with hid | hexpanded
  · rw [haccounts.idle hphase] at hid
    exact absurd hid (Array.not_mem_empty id)
  · exact hexpanded

theorem expanded_of_settled (haccounts : Accounts registry settings seeds run)
    (hphase : run.phase = .settled) {id : ConceptId} {entry : Entry}
    (hentry : run.store.get? id = some entry) : Expanded registry settings seeds run id :=
  haccounts.expanded_of_idle (by rw [hphase]; decide) hentry

theorem idle_of_move (haccounts : Accounts registry settings seeds run)
    (h : Move registry settings run next) (hphase' : next.phase ≠ .expanding) :
    next.fresh = #[] := by
  cases h with
  | turn hphase hfresh => exact hfresh
  | wave hphase hbatch => exact absurd (phase_of_wave hphase hbatch) hphase'
  | idle => rfl
  | round hphase hbatch =>
      have hcarries := carries_of_round haccounts.wellFormed hbatch
      exact (hcarries.unchanged (unchanged_of_round hphase')).2.2
  | rest => exact haccounts.idle hphase'

theorem expanded_of_move (hreach : Reachable registry settings seeds run)
    (haccounts : Accounts registry settings seeds run) (h : Move registry settings run next)
    {id : ConceptId} {entry : Entry} (hentry : next.store.get? id = some entry) :
    id ∈ next.fresh ∨ Expanded registry settings seeds next id := by
  obtain ⟨-, hgrows, hholds⟩ := keeps_of_move haccounts.wellFormed h
  cases h with
  | turn | rest => exact haccounts.expanded hentry
  | idle hphase =>
      right
      exact haccounts.expanded_of_idle (by rw [hphase]; decide) hentry
  | wave hphase hbatch =>
      rcases (carries_of_wave haccounts.wellFormed hbatch).arrived hentry with
        ⟨earlier, hearlier⟩ | hfresh
      · right
        rcases haccounts.expanded hearlier with hid | hexpanded
        · exact expanded_of_wave hreach haccounts.wellFormed hphase hbatch hid hearlier
        · exact hexpanded.keeps hgrows hholds
      · exact .inl hfresh
  | round hphase hbatch =>
      rcases (carries_of_round haccounts.wellFormed hbatch).arrived hentry with
        ⟨earlier, hearlier⟩ | hfresh
      · right
        exact (haccounts.expanded_of_idle (by rw [hphase]; decide) hearlier).keeps hgrows hholds
      · exact .inl hfresh

theorem move (hreach : Reachable registry settings seeds run)
    (haccounts : Accounts registry settings seeds run)
    (h : Move registry settings run next) : Accounts registry settings seeds next := by
  obtain ⟨hwellFormed, hgrows, hholds⟩ := keeps_of_move haccounts.wellFormed h
  exact
    { wellFormed := hwellFormed
      schema := hgrows.schema.trans haccounts.schema
      idle := haccounts.idle_of_move h
      offered := fun seed hseed => hholds (haccounts.offered seed hseed)
      expanded := haccounts.expanded_of_move hreach h }

end Accounts

theorem Reachable.accounts (h : Reachable registry settings seeds run) :
    Accounts registry settings seeds run := by
  induction h with
  | start h => exact accounts_of_start h
  | step hrun h ih => exact ih.move hrun (move_of_step h)

/-- A concept that has been expanded was in the store at its wave, with the same
key, origin and plain attributes and with no more in its cumulative ones. -/
theorem Expanded.exists_earlier {id : ConceptId} {entry : Entry}
    (h : Expanded registry settings seeds run id) (hget : run.store.get? id = some entry) :
    ∃ before earlier,
      Reachable registry settings seeds before ∧ before.phase = .expanding ∧
      id ∈ before.wave ∧ before.store.get? id = some earlier ∧
      earlier.key = entry.key ∧ earlier.origin = entry.origin ∧
      registry.schema.Within earlier.concept entry.concept ∧
      ∀ rule ∈ registry.rulesFor entry.concept.kind,
        ∃ products, rule.expand earlier.concept before.store = .ok products ∧
          ∀ product ∈ products, run.Holds product := by
  obtain ⟨before, earlier, hbefore, hphase, hwave, hearlier, hgrows, hrules⟩ := h
  obtain ⟨later, hlater, hkey, horigin, hwithin⟩ := hgrows.entry hearlier
  obtain rfl : later = entry := Option.some.inj (hlater.symm.trans hget)
  rw [hbefore.accounts.schema] at hwithin
  rw [hwithin.kind] at hrules
  exact ⟨before, earlier, hbefore, hphase, hwave, hearlier, hkey.symm, horigin.symm, hwithin,
    hrules⟩

/-! ## Where an expansion ends -/

theorem leastDeferred?_eq_none_iff : run.leastDeferred? = none ↔ run.deferred = [] := by
  unfold leastDeferred?
  rw [List.head?_eq_none_iff, ← List.length_eq_zero_iff, List.length_mergeSort,
    List.length_eq_zero_iff]

/-- Nothing is left loose if no offer waits and all references of stored concepts
lead somewhere. -/
theorem loose?_eq_none_iff :
    run.loose? = none ↔ run.deferred = [] ∧ run.store.dangling = [] := by
  unfold loose?
  cases hoffer : run.leastDeferred? with
  | some offer =>
      have hne : run.deferred ≠ [] := fun hnil => by
        rw [leastDeferred?_eq_none_iff.2 hnil] at hoffer
        cases hoffer
      simp [hne]
  | none => simp [leastDeferred?_eq_none_iff.1 hoffer]

theorem deferred_of_loose? (h : run.loose? = none) : run.deferred = [] :=
  (loose?_eq_none_iff.1 h).1

/-- What is left loose is a reference. -/
theorem unresolved_of_loose? {error : ExpansionError} (h : run.loose? = some error) :
    ∃ concept origin target, error = .unresolvedReference concept origin target := by
  unfold loose? at h
  split at h
  · exact ⟨_, _, _, (Option.some.inj h).symm⟩
  · obtain ⟨reference, -, rfl⟩ := Option.map_eq_some_iff.1 h
    exact ⟨_, _, _, rfl⟩

/-- A state yields a model if it leaves nothing loose. -/
theorem finish_eq_ok_iff {model : Model} : run.finish = .ok model ↔ run.loose? = none ∧
    { store := run.store, order := run.store.precedence
      stats := { run.stats with concepts := run.store.size } } = model := by
  rw [finish]
  cases run.loose? with
  | some error => simp
  | none => simp

/-- A state yields no model only for a reference that is left loose. -/
theorem unresolved_of_finish {error : ExpansionError} (h : run.finish = .error error) :
    ∃ concept origin target, error = .unresolvedReference concept origin target := by
  rw [finish] at h
  cases hloose : run.loose? with
  | none =>
      rw [hloose] at h
      cases h
  | some cause =>
      rw [hloose] at h
      obtain rfl : cause = error := Except.error.inj h
      exact unresolved_of_loose? hloose

theorem finish_ok {model : Model} (h : run.finish = .ok model) :
    run.deferred = [] ∧ model.store = run.store ∧ model.order = run.store.precedence ∧
      model.stats = { run.stats with concepts := run.store.size } := by
  obtain ⟨hloose, rfl⟩ := finish_eq_ok_iff.1 h
  exact ⟨deferred_of_loose? hloose, rfl, rfl, rfl⟩

/-- An expansion goes on from every state that it reaches. -/
theorem Reachable.expand_eq (h : Reachable registry settings seeds run) :
    registry.expand settings seeds = run.toFixpoint registry settings >>= finish := by
  induction h with
  | start h => exact bind_of_eq_ok h _
  | step _ h ih => rw [ih, toFixpoint_of_step h]

/-- An expansion that succeeds ends in a settled state in which no offer waits,
and its model has the store of that state. -/
theorem reachable_of_expand {model : Model} (h : registry.expand settings seeds = .ok model) :
    ∃ last, Reachable registry settings seeds last ∧ last.phase = .settled ∧
      last.deferred = [] ∧ model.store = last.store := by
  obtain ⟨started, hstart, h⟩ := exists_of_bind_eq_ok h
  obtain ⟨last, hlast, hfinish⟩ := exists_of_bind_eq_ok h
  obtain ⟨hreach, hphase⟩ := Reachable.toFixpoint (.start hstart) hlast
  obtain ⟨hdeferred, hstore, -⟩ := finish_ok hfinish
  exact ⟨last, hreach, hphase, hdeferred, hstore⟩

/-- Where no offer waits, what is held is stored. -/
theorem Holds.represents {concept : Concept} (h : run.Holds concept)
    (hdeferred : run.deferred = []) : run.store.Represents concept := by
  rcases h with hrepresents | ⟨offer, hmem, -⟩
  · exact hrepresents
  · rw [hdeferred] at hmem
    cases hmem

/-! ## Following a run -/

/-- The state of a run over these seeds after this many steps. -/
def after (registry : Registry) (settings : Settings) (seeds : List Concept) (count : Nat) :
    Except ExpansionError Run := do
  let started ← Run.start registry settings seeds
  started.steps registry settings count

/-- An expansion whose run is settled after some steps ends there. -/
theorem expand_of_after {count : Nat} (h : after registry settings seeds count = .ok last)
    (hphase : last.phase = .settled) : registry.expand settings seeds = last.finish := by
  obtain ⟨started, hstart, h⟩ := exists_of_bind_eq_ok h
  rw [(Reachable.start hstart).expand_eq]
  exact bind_of_eq_ok (toFixpoint_of_steps h hphase) _

theorem expand_of_after_error {error : ExpansionError} {count : Nat}
    (h : after registry settings seeds count = .error error) :
    registry.expand settings seeds = .error error := by
  rw [after] at h
  cases hstart : Run.start registry settings seeds with
  | error cause =>
      rw [bind_of_eq_error hstart] at h
      cases h
      exact bind_of_eq_error hstart _
  | ok started =>
      rw [bind_of_eq_ok hstart] at h
      rw [(Reachable.start hstart).expand_eq]
      exact bind_of_eq_error (toFixpoint_of_steps_error h) _

/-- What can be computed of the store that a run settles with is true of a
model. -/
theorem exists_model_of_after (registry : Registry) (settings : Settings)
    (seeds : List Concept) (count : Nat) (check : Store → Bool)
    (h : ((after registry settings seeds count).toOption.any fun last =>
      last.phase = .settled && last.loose?.isNone && check last.store) = true) :
    ∃ model, registry.expand settings seeds = .ok model ∧ check model.store = true := by
  cases hafter : after registry settings seeds count with
  | error e => rw [hafter] at h; cases h
  | ok last =>
      rw [hafter] at h
      simp only [Except.toOption, Option.any_some, Bool.and_eq_true, decide_eq_true_eq,
        Option.isNone_iff_eq_none] at h
      obtain ⟨⟨hphase, hloose⟩, hcheck⟩ := h
      rw [expand_of_after hafter hphase, finish, hloose]
      exact ⟨_, rfl, hcheck⟩

/-- What can be computed of the model that a run ends with is true of a model. -/
theorem exists_finish_of_after (registry : Registry) (settings : Settings)
    (seeds : List Concept) (count : Nat) (check : Model → Bool)
    (h : ((after registry settings seeds count).toOption.any fun last =>
      last.phase = .settled && last.finish.toOption.any check) = true) :
    ∃ model, registry.expand settings seeds = .ok model ∧ check model = true := by
  cases hafter : after registry settings seeds count with
  | error e => rw [hafter] at h; cases h
  | ok last =>
      rw [hafter] at h
      simp only [Except.toOption, Option.any_some, Bool.and_eq_true, decide_eq_true_eq] at h
      obtain ⟨hphase, hcheck⟩ := h
      rw [expand_of_after hafter hphase]
      cases hfinish : last.finish with
      | error e => rw [hfinish] at hcheck; cases hcheck
      | ok model =>
          rw [hfinish] at hcheck
          exact ⟨model, rfl, hcheck⟩

/-- A concept that a run has in its store when it settles is stored in a model. -/
theorem exists_entry_of_after (registry : Registry) (settings : Settings)
    (seeds : List Concept) (count : Nat) (concept : Concept)
    (h : ((after registry settings seeds count).toOption.any fun last =>
      last.phase = .settled && last.loose?.isNone &&
        last.store.entries.any fun entry => entry.concept = concept) = true) :
    ∃ model, registry.expand settings seeds = .ok model ∧
      ∃ entry ∈ model.store.entries, entry.concept = concept := by
  obtain ⟨model, hmodel, hcheck⟩ := exists_model_of_after registry settings seeds count
    (fun store => store.entries.any fun entry => entry.concept = concept) h
  obtain ⟨entry, hentry, hconcept⟩ := Array.any_eq_true'.1 hcheck
  exact ⟨model, hmodel, entry, hentry, of_decide_eq_true hconcept⟩

end ConceptExpansion.Run
