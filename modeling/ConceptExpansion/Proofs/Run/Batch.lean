/-
# A batch holds every answer

When a batch succeeds, every one of its jobs has been answered, by what the rule
says of the store as it stood when the batch began, and the run holds all that
the answers produce.
-/

import ConceptExpansion.Proofs.Run.Intake
import ConceptExpansion.Run.Progress

namespace ConceptExpansion

theorem Job.answer_of_get? {store : Store} {job : Job} {entry : Entry}
    (h : store.get? job.source = some entry) :
    job.answer store = job.rule.expand entry.concept store := by
  rw [Job.answer, h]

namespace Run

variable {registry : Registry} {settings : Settings} {run next : Run} {jobs : List Job}

theorem carries_of_absorb {job : Job} {answer : Except RuleFailure (List Concept)}
    (hrun : run.store.WellFormed) (h : run.absorb settings (job, answer) = .ok next) :
    Carries run next ∧ ∀ {entry : Entry}, run.store.get? job.source = some entry →
      ∃ products, answer = .ok products ∧ ∀ product ∈ products, next.Holds product := by
  obtain ⟨hnone, rfl⟩ | ⟨entry, products, -, hproducts, hreceive⟩ := absorb_cases h
  · exact ⟨.refl hrun, fun hsome => by rw [hnone] at hsome; cases hsome⟩
  · obtain ⟨hcarries, hall⟩ := carries_of_foldlM carries_of_receive hrun hreceive
    refine ⟨hcarries, fun _ => ⟨products, hproducts, fun product hproduct => ?_⟩⟩
    exact hall _ (List.mem_map.2 ⟨product, hproduct, rfl⟩)

/-- The answers of a batch are absorbed one after the other. None of them is
looked at again, because the sources of later jobs are still stored. -/
theorem carries_of_absorbAll {answer : Job → Except RuleFailure (List Concept)}
    (hrun : run.store.WellFormed)
    (h : (jobs.zip (jobs.map answer)).foldlM (absorb settings) run = .ok next) :
    Carries run next ∧ ∀ job ∈ jobs, ∀ {entry : Entry},
      run.store.get? job.source = some entry →
        ∃ products, answer job = .ok products ∧ ∀ product ∈ products, next.Holds product := by
  induction jobs generalizing run with
  | nil =>
      cases h
      exact ⟨.refl hrun, by simp⟩
  | cons job jobs ih =>
      rw [List.map_cons, List.zip_cons_cons, List.foldlM_cons] at h
      obtain ⟨middle, habsorb, h⟩ := exists_of_bind_eq_ok h
      obtain ⟨hfirst, hanswer⟩ := carries_of_absorb hrun habsorb
      obtain ⟨hrest, hall⟩ := ih hfirst.wellFormed h
      refine ⟨hfirst.trans hrest, fun other hother entry hentry => ?_⟩
      rcases List.mem_cons.1 hother with rfl | hother
      · obtain ⟨products, hproducts, hholds⟩ := hanswer hentry
        exact ⟨products, hproducts, fun product hproduct =>
          hrest.holds (hholds product hproduct)⟩
      · obtain ⟨later, hlater, -⟩ := hfirst.grows.entry hentry
        exact hall other hother hlater

theorem carries_of_runBatch (hrun : run.store.WellFormed)
    (h : run.runBatch settings jobs = .ok next) :
    Carries run.beginBatch next ∧ ∀ job ∈ jobs, ∀ {entry : Entry},
      run.store.get? job.source = some entry →
        ∃ products, job.rule.expand entry.concept run.store = .ok products ∧
          ∀ product ∈ products, next.Holds product := by
  obtain ⟨-, absorbed, habsorb, hretry⟩ := runBatch_ok_cases h
  have hbegin : (run.charged jobs).beginBatch.store.WellFormed := hrun
  obtain ⟨hfirst, hall⟩ := carries_of_absorbAll hbegin habsorb
  have hretry := carries_of_retry hfirst.wellFormed hretry
  have hcarries := hfirst.trans hretry
  refine ⟨{ hcarries with }, fun job hjob entry hentry => ?_⟩
  obtain ⟨products, hproducts, hheld⟩ := hall job hjob hentry
  refine ⟨products, ?_, fun product hproduct => hretry.holds (hheld product hproduct)⟩
  exact (Job.answer_of_get? hentry).symm.trans hproducts

/-! ## The jobs of a batch -/

theorem mem_wave {id : ConceptId} : id ∈ run.wave ↔ id ∈ run.fresh := by
  unfold wave
  rw [mem_eraseReps, List.mem_mergeSort, Array.mem_toList_iff]

/-- A wave asks every rule of its kind about every concept in it. -/
theorem mem_waveJobs {ids : List ConceptId} {job : Job} :
    job ∈ run.waveJobs registry ids ↔
      job.source ∈ ids ∧ ∃ entry, run.store.get? job.source = some entry ∧
        job.rule ∈ registry.rulesFor entry.concept.kind := by
  unfold waveJobs
  rw [List.mem_flatMap]
  constructor
  · rintro ⟨id, hid, hjob⟩
    split at hjob
    · next entry hentry =>
        obtain ⟨rule, hrule, rfl⟩ := List.mem_map.1 hjob
        exact ⟨hid, entry, hentry, hrule⟩
    · cases hjob
  · rintro ⟨hid, entry, hentry, hrule⟩
    refine ⟨job.source, hid, ?_⟩
    rw [hentry]
    exact List.mem_map.2 ⟨job.rule, hrule, rfl⟩

theorem mem_rulesFor_iff {kind : String} {rule : Rule} :
    rule ∈ registry.rulesFor kind ↔
      ∃ rules, (kind, rules) ∈ registry.rules.entries ∧ rule ∈ rules := by
  unfold Registry.rulesFor
  simp only [← NameMap.get?_eq_some_iff]
  cases registry.rules.get? kind <;> simp

theorem mem_modelReadingKinds {kind : String} {rule : Rule}
    (hrule : rule ∈ registry.rulesFor kind) (hreads : rule.readsModel = true) :
    kind ∈ registry.modelReadingKinds := by
  obtain ⟨rules, hentry, hrule⟩ := mem_rulesFor_iff.1 hrule
  refine List.mem_map.2 ⟨(kind, rules), List.mem_filter.2 ⟨hentry, ?_⟩, rfl⟩
  exact List.any_eq_true.2 ⟨rule, hrule, hreads⟩

/-- A round of review asks every model-reading rule of its kind about every
stored concept. -/
theorem mem_reviewJobs (hrun : run.store.WellFormed) {job : Job} :
    job ∈ run.reviewJobs registry ↔
      ∃ entry, run.store.get? job.source = some entry ∧
        job.rule ∈ registry.rulesFor entry.concept.kind ∧ job.rule.readsModel = true := by
  have hkind : ∀ {id : ConceptId} {entry : Entry}, run.store.get? id = some entry →
      entry.key.kind = entry.concept.kind := fun hentry =>
    (congrArg Key.kind (hrun.concept_key hentry)).symm
  unfold reviewJobs
  simp only [List.mem_flatMap, List.mem_map, hrun.mem_ofKind]
  constructor
  · rintro ⟨kind, -, entry, ⟨hentry, rfl⟩, rule, hrule, rfl⟩
    rw [hkind hentry] at hrule
    exact ⟨entry, hentry, List.mem_filter.1 hrule⟩
  · rintro ⟨entry, hentry, hrule, hreads⟩
    have hid : entry.id = job.source := hrun.id_of_get? hentry
    have hkind := hkind hentry
    refine ⟨entry.concept.kind, mem_modelReadingKinds hrule hreads, entry, ?_, job.rule, ?_, ?_⟩
    · exact ⟨hid ▸ hentry, hkind⟩
    · exact List.mem_filter.2 ⟨hrule, hreads⟩
    · rw [hid]

end Run

end ConceptExpansion
