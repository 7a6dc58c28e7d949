/-
# What a batch puts forward

A batch comes down to one list of offers: what its jobs produce, job by job, as
the store stood when the batch began. The jobs are absorbed one after the other
in a store that grows meanwhile, but the sources of later jobs keep their keys
and their depths, so absorbing the answers is the same as receiving the list.

While offers are taken in, the store, the list of fresh concepts and the
lineages grow together, each at its end. A batch therefore lists as fresh
exactly the concepts that it has added to the store, in the order of admission.
-/

import ConceptExpansion.Proofs.Agreement
import ConceptExpansion.Proofs.Run.Batch
import ConceptExpansion.Proofs.Run.Throughout
import ConceptExpansion.Proofs.Store.Listing

namespace ConceptExpansion

namespace Run

variable {registry : Registry} {settings : Settings} {run next : Run} {jobs : List Job}

/-! ## Growth at the end -/

/-- Every stored concept has a lineage. -/
def Aligned (run : Run) : Prop :=
  run.lineage.size = run.store.size

/-- From one state to a later one of the same batch `ids` are new: they are added
to the store and to the fresh concepts, in this order, and each gets a lineage. -/
structure Addition (run next : Run) (ids : List ConceptId) (lineages : List Lineage) :
    Prop where
  stored : next.store.ids = run.store.ids ++ ids
  fresh : next.fresh.toList = run.fresh.toList ++ ids
  lineage : next.lineage.toList = run.lineage.toList ++ lineages
  length : lineages.length = ids.length
  stage : ∀ lineage ∈ lineages, lineage.stage = .admitted

/-- The later state differs by an addition at the end. -/
def Appends (run next : Run) : Prop :=
  ∃ ids lineages, Addition run next ids lineages

namespace Appends

theorem refl (run : Run) : Appends run run :=
  ⟨[], [], by simp, by simp, by simp, rfl, by simp⟩

theorem trans {a b c : Run} (hab : Appends a b) (hbc : Appends b c) : Appends a c := by
  obtain ⟨ids, lineages, h⟩ := hab
  obtain ⟨ids', lineages', h'⟩ := hbc
  refine ⟨ids ++ ids', lineages ++ lineages', ?_, ?_, ?_, ?_, fun lineage hlineage => ?_⟩
  · rw [h'.stored, h.stored, List.append_assoc]
  · rw [h'.fresh, h.fresh, List.append_assoc]
  · rw [h'.lineage, h.lineage, List.append_assoc]
  · rw [List.length_append, List.length_append, h.length, h'.length]
  · exact (List.mem_append.1 hlineage).elim (h.stage lineage) (h'.stage lineage)

theorem lineage_getElem? (h : Appends run next) {index : Nat}
    (hindex : index < run.lineage.size) : next.lineage[index]? = run.lineage[index]? := by
  obtain ⟨ids, lineages, h⟩ := h
  rw [← Array.getElem?_toList, h.lineage, List.getElem?_append_left (by simpa using hindex),
    Array.getElem?_toList]

theorem aligned (h : Appends run next) (hrun : run.Aligned) : next.Aligned := by
  obtain ⟨ids, lineages, h⟩ := h
  have hstored := congrArg List.length h.stored
  have hlineage := congrArg List.length h.lineage
  have hlength := h.length
  unfold Aligned at hrun ⊢
  simp only [Store.length_ids, List.length_append, Array.length_toList] at hstored hlineage
  omega

/-- The depth of a concept that has a lineage does not change. -/
theorem depthOf (h : Appends run next) {id : ConceptId} (hid : id.index < run.lineage.size) :
    next.depthOf id = run.depthOf id := by
  unfold Run.depthOf
  rw [h.lineage_getElem? hid]

end Appends

/-- After a batch the fresh concepts are those that it has added to the store. -/
theorem Appends.ids_of_beginBatch (h : Appends run.beginBatch next) :
    next.store.ids = run.store.ids ++ next.fresh.toList := by
  obtain ⟨ids, lineages, h⟩ := h
  have hfresh : next.fresh.toList = ids := h.fresh
  rw [hfresh]
  exact h.stored

theorem appends_of_place {offer : Offer} (h : run.place settings offer = .ok next) :
    Appends run next := by
  obtain ⟨admission, store, hinsert, rfl⟩ := insert_of_place h
  have hids := Store.ids_insert hinsert
  cases admission with
  | admitted id =>
      refine ⟨[id], [{ parent := offer.parent, depth := offer.depth }], hids, ?_, ?_, rfl, ?_⟩
      · exact Array.toList_push
      · exact Array.toList_push
      · intro lineage hlineage
        rw [List.mem_singleton.1 hlineage]
  | alreadyPresent id | merged id =>
      refine ⟨[], [], ?_, ?_, ?_, rfl, by simp⟩
      · rw [List.append_nil]
        exact hids
      · exact (List.append_nil _).symm
      · exact (List.append_nil _).symm

/-- Whatever offers are taken in, the state only grows at its end. -/
theorem throughout_appends (settings : Settings) (start : Run) :
    Throughout settings (fun _ => True) fun run _ => Appends start run := by
  apply throughout_of_place
  · rintro run deferred deferrals ⟨ids, lineages, h⟩
    exact ⟨ids, lineages, { h with }⟩
  · intro run next offer h hplace
    exact h.trans (appends_of_place hplace)

end Run

/-! ## The offers of a batch -/

/-- What a job produces when its rule reads this store; a rule that fails produces
nothing. -/
def Job.products (store : Store) (job : Job) : List Concept :=
  match job.answer store with
  | .ok products => products
  | .error _ => []

theorem Job.products_of_answer {store : Store} {job : Job} {products : List Concept}
    (h : job.answer store = .ok products) : job.products store = products := by
  unfold Job.products
  rw [h]

namespace Run

variable {registry : Registry} {settings : Settings} {run next base : Run} {jobs : List Job}

/-- What the jobs put forward as the state stands, job by job. -/
def offered (run : Run) (jobs : List Job) : List Offer :=
  jobs.flatMap fun job =>
    match run.store.get? job.source with
    | some entry => run.offersOf job entry.key (job.products run.store)
    | none => []

/-- The jobs are about stored concepts. -/
def Sourced (run : Run) (jobs : List Job) : Prop :=
  ∀ job ∈ jobs, ∃ entry, run.store.get? job.source = some entry

/-- All rules succeed on their jobs. -/
def Answered (run : Run) (jobs : List Job) : Prop :=
  ∀ job ∈ jobs, ∃ products, job.answer run.store = .ok products

theorem concepts_offersOf (run : Run) (job : Job) (source : Key) (products : List Concept) :
    (run.offersOf job source products).map (·.concept) = products := by
  unfold offersOf
  rw [List.map_map]
  exact List.map_id' products

theorem concepts_offered (hsourced : run.Sourced jobs) :
    (run.offered jobs).map (·.concept) = jobs.flatMap (Job.products run.store) := by
  unfold offered
  rw [List.map_flatMap]
  apply List.flatMap_congr
  intro job hjob
  obtain ⟨entry, hentry⟩ := hsourced job hjob
  rw [hentry]
  exact concepts_offersOf run job entry.key _

/-- Absorbing an answer is receiving what the job puts forward, also when other jobs of
the batch have been absorbed before: the source of the job has kept its key and its
depth. -/
theorem absorb_eq (haligned : base.Aligned) (hcarries : Carries base run)
    (happends : Appends base run) {job : Job} {entry : Entry} {products : List Concept}
    (hentry : base.store.get? job.source = some entry) :
    run.absorb settings (job, .ok products) =
      (base.offersOf job entry.key products).foldlM (receive settings) run := by
  have hindex : job.source.index < base.lineage.size := by
    rw [haligned]
    exact (Array.getElem?_eq_some_iff.1 hentry).1
  obtain ⟨later, hlater, hkey, -, -⟩ := hcarries.grows.entry hentry
  unfold absorb offersOf
  dsimp only
  rw [hlater]
  dsimp only
  rw [hkey, happends.depthOf hindex]

/-- Absorbing the answers of jobs is receiving what they put forward, also when
other jobs of the batch have been absorbed before. -/
theorem absorbAll_eq (settings : Settings) (haligned : base.Aligned)
    (hsourced : base.Sourced jobs)
    (hanswered : base.Answered jobs) (hcarries : Carries base run) (happends : Appends base run) :
    (jobs.zip (jobs.map (Job.answer base.store))).foldlM (absorb settings) run =
      (base.offered jobs).foldlM (receive settings) run := by
  induction jobs generalizing run with
  | nil => rfl
  | cons job jobs ih =>
      obtain ⟨entry, hentry⟩ := hsourced job List.mem_cons_self
      obtain ⟨products, hproducts⟩ := hanswered job List.mem_cons_self
      have hfirst : absorb settings run (job, job.answer base.store) =
          (base.offersOf job entry.key products).foldlM (receive settings) run := by
        rw [hproducts]
        exact absorb_eq haligned hcarries happends hentry
      have hoffered : base.offered (job :: jobs) =
          base.offersOf job entry.key products ++ base.offered jobs := by
        unfold offered
        rw [List.flatMap_cons, hentry, Job.products_of_answer hproducts]
      rw [List.map_cons, List.zip_cons_cons, List.foldlM_cons, hfirst, hoffered,
        List.foldlM_append]
      apply Agree.bind_congr_ok
      intro middle hmiddle
      have hcarries' := (carries_of_foldlM carries_of_receive hcarries.wellFormed hmiddle).1
      have happends' := ((throughout_appends settings base).receiveAll happends).of_ok hmiddle
      exact ih (fun other hother => hsourced other (List.mem_cons_of_mem _ hother))
        (fun other hother => hanswered other (List.mem_cons_of_mem _ hother))
        (hcarries.trans hcarries') happends'

/-- A batch within the budget whose rules all succeed takes in what its jobs put
forward. -/
theorem runBatch_eq (hrun : run.store.WellFormed) (haligned : run.Aligned)
    (hsourced : run.Sourced jobs) (hanswered : run.Answered jobs)
    (hbudget : jobs.length ≤ settings.budget run.stats.seeds - run.stats.ruleInvocations) :
    run.runBatch settings jobs =
      (run.charged jobs).beginBatch.intake settings (run.offered jobs) := by
  have hbegin : (run.charged jobs).beginBatch.store.WellFormed := hrun
  have haligned' : (run.charged jobs).beginBatch.Aligned := haligned
  have habsorb : (jobs.zip (jobs.map (Job.answer run.store))).foldlM (absorb settings)
      (run.charged jobs).beginBatch =
        (run.offered jobs).foldlM (receive settings) (run.charged jobs).beginBatch := by
    have hreceives := absorbAll_eq settings haligned' hsourced hanswered (.refl hbegin) (.refl _)
    exact hreceives
  rw [intake, ← habsorb]
  exact bind_of_eq_ok (charge_eq_ok hbudget) _

/-- In a batch that succeeds all rules have succeeded. -/
theorem answered_of_runBatch (hrun : run.store.WellFormed) (hsourced : run.Sourced jobs)
    (h : run.runBatch settings jobs = .ok next) : run.Answered jobs := by
  intro job hjob
  obtain ⟨entry, hentry⟩ := hsourced job hjob
  obtain ⟨products, hproducts, -⟩ := (carries_of_runBatch hrun h).2 job hjob hentry
  exact ⟨products, (Job.answer_of_get? hentry).trans hproducts⟩

/-- What holds throughout the taking in of offers holds at the end of a batch. -/
theorem Throughout.runBatch {E : ExpansionError → Prop} {P : Run → List Offer → Prop}
    (h : Throughout settings E P) (hrun : run.store.WellFormed) (haligned : run.Aligned)
    (hsourced : run.Sourced jobs) (hbatch : run.runBatch settings jobs = .ok next)
    (hbegin : P (run.charged jobs).beginBatch (run.offered jobs)) : P next [] := by
  have hanswered := answered_of_runBatch hrun hsourced hbatch
  have hbudget := (runBatch_ok_cases hbatch).1
  rw [runBatch_eq hrun haligned hsourced hanswered hbudget] at hbatch
  exact (h.intake hbegin).of_ok hbatch

/-- A batch adds to the store, to the fresh concepts and to the lineages alike. -/
theorem appends_of_runBatch (hrun : run.store.WellFormed) (haligned : run.Aligned)
    (hsourced : run.Sourced jobs) (h : run.runBatch settings jobs = .ok next) :
    Appends run.beginBatch next := by
  obtain ⟨ids, lineages, haddition⟩ :=
    (throughout_appends settings (run.charged jobs).beginBatch).runBatch hrun haligned hsourced h
      (.refl _)
  exact ⟨ids, lineages, { haddition with }⟩

/-! ## The jobs of waves and rounds -/

/-- The jobs ask rules about stored concepts of their kinds. -/
def Fitting (registry : Registry) (run : Run) (jobs : List Job) : Prop :=
  ∀ job ∈ jobs, ∃ entry, run.store.get? job.source = some entry ∧
    job.rule ∈ registry.rulesFor entry.concept.kind

theorem Fitting.sourced (h : run.Fitting registry jobs) : run.Sourced jobs :=
  fun job hjob => (h job hjob).imp fun _ hentry => hentry.1

theorem fitting_waveJobs (registry : Registry) (run : Run) (ids : List ConceptId) :
    run.Fitting registry (run.waveJobs registry ids) :=
  fun _ hjob => (mem_waveJobs.1 hjob).2

theorem fitting_reviewJobs (registry : Registry) (hrun : run.store.WellFormed) :
    run.Fitting registry (run.reviewJobs registry) := by
  intro job hjob
  obtain ⟨entry, hentry, hrule, -⟩ := (mem_reviewJobs hrun).1 hjob
  exact ⟨entry, hentry, hrule⟩

theorem sourced_waveJobs (registry : Registry) (run : Run) (ids : List ConceptId) :
    run.Sourced (run.waveJobs registry ids) :=
  (fitting_waveJobs registry run ids).sourced

theorem sourced_reviewJobs (registry : Registry) (hrun : run.store.WellFormed) :
    run.Sourced (run.reviewJobs registry) :=
  (fitting_reviewJobs registry hrun).sourced

end Run

end ConceptExpansion
