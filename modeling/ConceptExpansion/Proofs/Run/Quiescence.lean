/-
# Runs over a saturated store

A store is saturated if every rule succeeds on every stored concept of its kind, as the
store stands, and returns nothing but what the store represents. An offer of a
represented concept finds nothing to add. So once the store of a run is saturated and
nothing waits, taking in whatever the rules return counts the offers and does no more:
the run expands the concepts that are fresh, asks the model-reading rules once, and is
settled with the store that it had.
-/

import ConceptExpansion.Proofs.Run.Course
import ConceptExpansion.Proofs.Run.Jobs
import ConceptExpansion.Proofs.Store.Contents

namespace ConceptExpansion

/-- Every rule succeeds on every stored concept of its kind, and the store represents
all that it returns. -/
def Store.Saturated (registry : Registry) (store : Store) : Prop :=
  ∀ entry ∈ store.entries, ∀ rule ∈ registry.rulesFor entry.concept.kind,
    ∃ products, rule.expand entry.concept store = .ok products ∧
      ∀ product ∈ products, store.Represents product

theorem Store.Represents.missingTarget? {store : Store} {concept : Concept}
    (h : store.Represents concept) (hstore : store.WellFormed) :
    store.missingTarget? concept = none := by
  obtain ⟨entry, hfind, -⟩ := h
  exact hstore.missingTarget?_of_find? hfind

namespace Run

variable {registry : Registry} {settings : Settings} {seeds : List Concept}
  {run next : Run} {jobs : List Job} {offers : List Offer}

/-! ## Offers that add nothing -/

/-- Nothing has happened but that some offers have added nothing. -/
def Idles (run next : Run) : Prop :=
  ∃ count, next = { run with stats := { run.stats with alreadyPresent := count } }

/-- While offers of represented concepts are taken in, nothing else happens. -/
theorem throughout_idles (settings : Settings) (hrun : run.store.WellFormed)
    (hdeferred : run.deferred = []) :
    Throughout settings (fun _ => False) fun next rest =>
      Idles run next ∧ ∀ offer ∈ rest, run.store.Represents offer.concept where
  reject := by
    rintro next offer rest cause ⟨⟨count, rfl⟩, hrest⟩ hinvalid
    obtain ⟨kind, hvalid⟩ := hrun.validate_of_represents (hrest offer List.mem_cons_self)
    cases hvalid.symm.trans hinvalid
  defer := by
    rintro next offer rest target ⟨⟨count, rfl⟩, hrest⟩ hmissing
    cases ((hrest offer List.mem_cons_self).missingTarget? hrun).symm.trans hmissing
  place := by
    rintro next offer rest ⟨⟨count, rfl⟩, hrest⟩ -
    obtain ⟨id, hinsert⟩ := (hrest offer List.mem_cons_self).insert_eq hrun offer.origin
    rw [place_eq, hinsert]
    refine ⟨⟨count + 1, rfl⟩, fun other hother => hrest other (List.mem_cons_of_mem _ hother)⟩
  pass := by
    rintro next ⟨⟨count, rfl⟩, -⟩
    show Idles run _ ∧ ∀ offer ∈ run.deferred, _
    rw [hdeferred]
    refine ⟨⟨count, ?_⟩, fun _ hoffer => absurd hoffer List.not_mem_nil⟩
    rw [← hdeferred]

theorem idles_of_intake (hrun : run.store.WellFormed) (hdeferred : run.deferred = [])
    (hoffers : ∀ offer ∈ offers, run.store.Represents offer.concept) :
    ∃ next, run.intake settings offers = .ok next ∧ Idles run next := by
  have hends := (throughout_idles settings hrun hdeferred).intake
    ⟨⟨run.stats.alreadyPresent, rfl⟩, hoffers⟩
  cases hnext : run.intake settings offers with
  | error error => exact (hends.of_error hnext).elim
  | ok next => exact ⟨next, rfl, (hends.of_ok hnext).1⟩

/-! ## Batches over a saturated store -/

/-- Over a saturated store in which nothing waits a batch counts its jobs and their
products, and does no more. -/
theorem idles_of_runBatch (hrun : run.store.WellFormed) (haligned : run.Aligned)
    (hsaturated : run.store.Saturated registry) (hdeferred : run.deferred = [])
    (hjobs : run.Fitting registry jobs) (hbudget : jobs.length ≤ run.budgetLeft settings) :
    ∃ next, run.runBatch settings jobs = .ok next ∧ Idles (run.charged jobs).beginBatch next := by
  have hanswers : ∀ job ∈ jobs, ∃ products, job.answer run.store = .ok products ∧
      ∀ product ∈ products, run.store.Represents product := by
    intro job hjob
    obtain ⟨entry, hentry, hrule⟩ := hjobs job hjob
    rw [Job.answer_of_get? hentry]
    exact hsaturated entry (Array.mem_of_getElem? hentry) job.rule hrule
  have hsourced := hjobs.sourced
  have hanswered : run.Answered jobs := fun job hjob => (hanswers job hjob).imp fun _ h => h.1
  rw [runBatch_eq hrun haligned hsourced hanswered hbudget]
  have hbegin : (run.charged jobs).beginBatch.store.WellFormed := hrun
  apply idles_of_intake hbegin hdeferred
  intro offer hoffer
  have hconcept : offer.concept ∈ (run.offered jobs).map (·.concept) :=
    List.mem_map_of_mem hoffer
  rw [concepts_offered hsourced] at hconcept
  obtain ⟨job, hjob, hproduct⟩ := List.mem_flatMap.1 hconcept
  obtain ⟨products, hproducts, hrepresented⟩ := hanswers job hjob
  rw [Job.products_of_answer hproducts] at hproduct
  exact hrepresented _ hproduct

/-- A run begins with nothing charged to its budget. -/
theorem budgetLeft_of_start (h : Run.start registry settings seeds = .ok run) :
    run.budgetLeft settings = settings.budget seeds.length := by
  obtain ⟨offered, hoffered, hretry⟩ := start_ok h
  have hcharge := (sameCharge_of_foldlM sameCharge_of_receive hoffered).trans (retry_ok hretry).1
  unfold budgetLeft
  rw [hcharge.seeds, hcharge.ruleInvocations]
  exact Nat.sub_zero _

/-! ## What there is to ask, if no kind has two rules -/

theorem length_flatMap_le {α β : Type} {f : α → List β} (hf : ∀ a, (f a).length ≤ 1)
    (list : List α) : (list.flatMap f).length ≤ list.length := by
  induction list with
  | nil => exact le_rfl
  | cons a list ih =>
      have ha := hf a
      rw [List.flatMap_cons, List.length_append, List.length_cons]
      omega

theorem length_jobsOf_le {rulesOf : String → List Rule}
    (hrules : ∀ kind, (rulesOf kind).length ≤ 1) (store : Store) (id : ConceptId) :
    (store.jobsOf rulesOf id).length ≤ 1 := by
  cases hget : store.get? id with
  | none => simp [Store.jobsOf_of_none hget]
  | some entry =>
      rw [Store.jobsOf_of_get? hget, List.length_map]
      exact hrules _

theorem length_jobs_le {rulesOf : String → List Rule}
    (hrules : ∀ kind, (rulesOf kind).length ≤ 1) {store : Store} (hstore : store.WellFormed) :
    (store.jobs rulesOf).length ≤ store.size := by
  rw [← hstore.flatMap_jobsOf, ← store.length_ids]
  exact length_flatMap_le (length_jobsOf_le hrules store) _

/-- A wave asks about no more concepts than are stored. -/
theorem Reachable.length_waveJobs_le (h : Reachable registry settings seeds run)
    (hrules : ∀ kind, (registry.rulesFor kind).length ≤ 1) :
    (run.waveJobs registry run.wave).length ≤ run.store.size := by
  obtain ⟨passed, hcourse⟩ := h.exists_course
  have htally := hcourse.tally
  have hwave := (wave_perm (htally.nodup_fresh h.accounts.wellFormed)).length_eq
  have hstored := htally.stored.length_eq
  rw [List.length_append, Store.length_ids] at hstored
  have hle := length_flatMap_le (length_jobsOf_le hrules run.store) run.wave
  rw [waveJobs_eq_flatMap]
  omega

/-! ## Steps over a saturated store -/

/-- The store, what waits and the number of merges are the same. -/
structure Rests (run next : Run) : Prop where
  store : next.store = run.store
  deferred : next.deferred = run.deferred
  merges : next.stats.merges = run.stats.merges

theorem Rests.trans {a b c : Run} (hab : Rests a b) (hbc : Rests b c) : Rests a c :=
  ⟨hbc.store.trans hab.store, hbc.deferred.trans hab.deferred, hbc.merges.trans hab.merges⟩

/-- Over a saturated store a run comes to review after one wave at most. -/
theorem Reachable.reviews_of_saturated (h : Reachable registry settings seeds run)
    (hphase : run.phase = .expanding) (hsaturated : run.store.Saturated registry)
    (hdeferred : run.deferred = [])
    (hbudget : (run.waveJobs registry run.wave).length ≤ run.budgetLeft settings) :
    ∃ next, Reachable registry settings seeds next ∧
      run.toFixpoint registry settings = next.toFixpoint registry settings ∧
      next.phase = .reviewing ∧ Rests run next ∧
      next.budgetLeft settings =
        run.budgetLeft settings - (run.waveJobs registry run.wave).length ∧
      next.stats.reviewRounds = run.stats.reviewRounds := by
  by_cases hfresh : run.fresh = #[]
  · have hturn : run.step registry settings = .ok { run with phase := .reviewing } :=
      step_turn hphase hfresh
    refine ⟨_, .step h hturn, toFixpoint_of_step hturn, rfl, ⟨rfl, rfl, rfl⟩, ?_, rfl⟩
    rw [wave_of_empty hfresh]
    rfl
  · have hwellFormed : run.beginWave.store.WellFormed := h.accounts.wellFormed
    obtain ⟨batch, hbatch, count, hidles⟩ := idles_of_runBatch hwellFormed (aligned_mark h.aligned)
      hsaturated hdeferred (fitting_waveJobs registry run.beginWave run.wave) hbudget
    have hwave : run.step registry settings = .ok (batch.mark .expanded run.wave) :=
      (step_wave hphase hfresh).trans (bind_of_eq_ok hbatch _)
    have hexpanded : (batch.mark .expanded run.wave).phase = .expanding := by
      rw [hidles]
      exact hphase
    have hempty : (batch.mark .expanded run.wave).fresh = #[] := by
      rw [hidles]
      rfl
    have hturn : (batch.mark .expanded run.wave).step registry settings =
        .ok { batch.mark .expanded run.wave with phase := .reviewing } :=
      step_turn hexpanded hempty
    refine ⟨_, .step (.step h hwave) hturn,
      (toFixpoint_of_step hwave).trans (toFixpoint_of_step hturn), rfl, ?_, ?_, ?_⟩
    · rw [hidles]
      exact ⟨rfl, rfl, rfl⟩
    · rw [hidles]
      exact Nat.sub_add_eq _ _ _
    · rw [hidles]
      rfl

/-- Over a saturated store review settles a run with one round at most. -/
theorem Reachable.settles_of_saturated (h : Reachable registry settings seeds run)
    (hphase : run.phase = .reviewing) (hsaturated : run.store.Saturated registry)
    (hdeferred : run.deferred = [])
    (hbudget : (run.reviewJobs registry).length ≤ run.budgetLeft settings) :
    ∃ last, run.toFixpoint registry settings = .ok last ∧ Rests run last ∧
      last.stats.reviewRounds ≤ run.stats.reviewRounds + 1 := by
  by_cases hjobs : run.reviewJobs registry = []
  · have hidle : run.step registry settings =
        .ok { run with fresh := #[], changed := false, phase := .settled } :=
      step_idle hphase hjobs
    refine ⟨_, (toFixpoint_of_step hidle).trans (toFixpoint_of_settled rfl), ⟨rfl, rfl, rfl⟩, ?_⟩
    exact Nat.le_succ _
  · have hwellFormed : run.beginReview.store.WellFormed := h.accounts.wellFormed
    have hfitting : run.beginReview.Fitting registry (run.reviewJobs registry) :=
      fitting_reviewJobs registry h.accounts.wellFormed
    obtain ⟨batch, hbatch, count, hidles⟩ := idles_of_runBatch hwellFormed h.aligned hsaturated
      hdeferred hfitting hbudget
    have hround : run.step registry settings =
        .ok { batch with phase := if batch.changed then .expanding else .settled } :=
      (step_round hphase hjobs).trans (bind_of_eq_ok hbatch _)
    rw [hidles] at hround
    refine ⟨_, (toFixpoint_of_step hround).trans (toFixpoint_of_settled rfl), ⟨rfl, rfl, rfl⟩, ?_⟩
    exact le_rfl

/-- A run that comes to have a saturated store in which nothing waits settles with
that store, if the budget covers one wave and one round. -/
theorem Reachable.toFixpoint_of_saturated (h : Reachable registry settings seeds run)
    (hphase : run.phase = .expanding) (hsaturated : run.store.Saturated registry)
    (hdeferred : run.deferred = [])
    (hbudget : (run.waveJobs registry run.wave).length +
      (run.store.jobs registry.readingRulesFor).length ≤ run.budgetLeft settings) :
    ∃ last, run.toFixpoint registry settings = .ok last ∧ Rests run last ∧
      last.stats.reviewRounds ≤ run.stats.reviewRounds + 1 := by
  obtain ⟨next, hnext, hcontinues, hreviewing, hrests, hleft, hrounds⟩ :=
    h.reviews_of_saturated hphase hsaturated hdeferred (by omega)
  have hjobs := (reviewJobs_perm registry hnext.accounts.wellFormed).length_eq
  rw [hrests.store] at hjobs
  obtain ⟨last, hlast, hrests', hle⟩ := hnext.settles_of_saturated hreviewing
    (hrests.store ▸ hsaturated) (hrests.deferred.trans hdeferred) (by omega)
  exact ⟨last, hcontinues.trans hlast, hrests.trans hrests', hrounds ▸ hle⟩

end Run

end ConceptExpansion
