/-
# Where offers and stored concepts come from

An offer is issued by a seed or by a job of a batch that the run has gone on with. It
may wait through many batches before it is placed, so what is deferred in a state was
not in general issued by the batch that led there. Its origin, parent and depth wait
with it. `Attributed` says that everything in a state can be put down to an issued
offer: every offer that waits is one, and every stored concept has the key, the
origin, the parent and the depth of one that was placed under its identifier.

Offers carry the identifier of their parent. It was given out before the offer was
issued, hence before the identifier of any concept that the offer becomes; an issued
offer therefore comes with a bound, the number of concepts that were stored by then
at most.
-/

import ConceptExpansion.Proofs.Run.Course

namespace ConceptExpansion

/-- After an admission every concept was stored before, with the same key and origin,
or is the admitted one and has the next identifier. -/
theorem Store.get?_insert_cases {store later : Store} {concept : Concept} {origin : Origin}
    {admission : Admission} (h : store.insert concept origin = .ok (admission, later))
    {id : ConceptId} {entry : Entry} (hget : later.get? id = some entry) :
    (∃ earlier, store.get? id = some earlier ∧ earlier.key = entry.key ∧
      earlier.origin = entry.origin) ∨
    (admission.isNew = true ∧ id.index = store.size ∧ entry.key = concept.key ∧
      entry.origin = origin) := by
  obtain ⟨kind, -, -, hinsertion⟩ := insert_eq_ok_iff.1 h
  cases hinsertion with
  | admitted hid hnew =>
      rw [get?_push] at hget
      split at hget
      · next hindex =>
          cases hget
          exact .inr ⟨rfl, hindex, rfl, rfl⟩
      · exact .inl ⟨entry, hget, rfl, rfl⟩
  | alreadyPresent => exact .inl ⟨entry, hget, rfl, rfl⟩
  | merged =>
      rw [get?_setPayload] at hget
      split at hget
      · next hid =>
          obtain ⟨earlier, hearlier, rfl⟩ := Option.map_eq_some_iff.1 hget
          exact .inl ⟨earlier, hid ▸ hearlier, rfl, rfl⟩
      · exact .inl ⟨entry, hget, rfl, rfl⟩

namespace Run

variable {registry : Registry} {settings : Settings} {seeds : List Concept}
  {passed : List Run} {run next last batch : Run} {jobs : List Job} {offer : Offer}

/-! ## Parents and depths -/

theorem depthOf_eq (run : Run) (id : ConceptId) :
    run.depthOf id = (run.lineage[id.index]?.map (·.depth)).getD 0 := by
  unfold depthOf
  cases run.lineage[id.index]? <;> rfl

theorem parentOf?_eq (run : Run) (id : ConceptId) :
    run.parentOf? id = (run.lineage[id.index]?.map (·.parent)).join := by
  unfold parentOf?
  cases run.lineage[id.index]? <;> rfl

/-- Marking concepts changes nothing of their lineages but the stage. -/
theorem lineage_mark_map {α : Type} (f : Lineage → α)
    (hf : ∀ lineage stage, f { lineage with stage := stage } = f lineage) (run : Run)
    (stage : Stage) (ids : List ConceptId) (index : Nat) :
    (run.mark stage ids).lineage[index]?.map f = run.lineage[index]?.map f := by
  induction ids generalizing run with
  | nil => rfl
  | cons id ids ih =>
      rw [mark_cons, ih, lineage_mark_singleton, Array.getElem?_modify]
      split
      · rw [Option.map_map]
        congr 1
        funext lineage
        exact hf lineage _
      · rfl

@[simp]
theorem depthOf_mark (run : Run) (stage : Stage) (ids : List ConceptId) (id : ConceptId) :
    (run.mark stage ids).depthOf id = run.depthOf id := by
  rw [depthOf_eq, depthOf_eq, lineage_mark_map _ fun _ _ => rfl]

@[simp]
theorem parentOf?_mark (run : Run) (stage : Stage) (ids : List ConceptId) (id : ConceptId) :
    (run.mark stage ids).parentOf? id = run.parentOf? id := by
  rw [parentOf?_eq, parentOf?_eq, lineage_mark_map _ fun _ _ => rfl]

namespace Appends

theorem size_le (h : Appends run next) : run.store.size ≤ next.store.size := by
  obtain ⟨ids, lineages, h⟩ := h
  have hlength := congrArg List.length h.stored
  rw [List.length_append, Store.length_ids, Store.length_ids] at hlength
  omega

/-- The parent of a concept that has a lineage does not change. -/
theorem parentOf? (h : Appends run next) {id : ConceptId} (hid : id.index < run.lineage.size) :
    next.parentOf? id = run.parentOf? id := by
  unfold Run.parentOf?
  rw [h.lineage_getElem? hid]

end Appends

theorem index_lt_of_get? {store : Store} {id : ConceptId} {entry : Entry}
    (h : store.get? id = some entry) : id.index < store.size :=
  (Array.getElem?_eq_some_iff.1 h).1

/-! ## Issued offers -/

/-- The batch with which a state goes on asks rules about stored concepts of their
kinds. -/
theorem fitting_batchJobs (registry : Registry) (hrun : run.store.WellFormed) :
    run.Fitting registry (run.batchJobs registry) := by
  cases hphase : run.phase with
  | expanding =>
      rw [batchJobs_of_expanding hphase]
      exact fitting_waveJobs registry run run.wave
  | reviewing =>
      rw [batchJobs_of_reviewing hphase]
      exact fitting_reviewJobs registry hrun
  | settled =>
      rw [batchJobs_of_settled hphase]
      exact fun _ hjob => absurd hjob List.not_mem_nil

/-- The offers that the seeds and the batches of the passed states amount to, as far
as no more than `bound` concepts were stored when the batch began. -/
inductive Issued (registry : Registry) (seeds : List Concept) (passed : List Run)
    (bound : Nat) : Offer → Prop
  /-- A seed, at its position. -/
  | seed {position : Nat} {seed : Concept} (hseed : seeds[position]? = some seed) :
      Issued registry seeds passed bound
        { concept := seed, origin := .seed position, parent := none, depth := 0 }
  /-- A concept that a rule has returned when it was invoked on a stored concept. -/
  | product {earlier : Run} {job : Job} {source : Entry} {products : List Concept}
      {concept : Concept} (hearlier : earlier ∈ passed) (hbound : earlier.store.size ≤ bound)
      (hjob : job ∈ earlier.batchJobs registry)
      (hsource : earlier.store.get? job.source = some source)
      (hproducts : job.rule.expand source.concept earlier.store = .ok products)
      (hconcept : concept ∈ products) :
      Issued registry seeds passed bound
        { concept, origin := .rule job.rule.name source.key, parent := some job.source
          depth := earlier.depthOf job.source + 1 }

namespace Issued

variable {passed' : List Run} {bound bound' : Nat}

theorem mono (h : Issued registry seeds passed bound offer) (hpassed : passed ⊆ passed')
    (hbound : bound ≤ bound') : Issued registry seeds passed' bound' offer := by
  cases h with
  | seed hseed => exact .seed hseed
  | product hearlier hle hjob hsource hproducts hconcept =>
      exact .product (hpassed hearlier) (hle.trans hbound) hjob hsource hproducts hconcept

theorem of_mem_ofSeeds (h : offer ∈ Offer.ofSeeds seeds) :
    Issued registry seeds passed bound offer := by
  obtain ⟨position, seed, hseed, rfl⟩ := mem_ofSeeds.1 h
  exact .seed hseed

/-- What the jobs of a state's batch put forward is issued by that state. -/
theorem of_mem_offered (hanswered : run.Answered jobs) (hjobs : jobs = run.batchJobs registry)
    (h : offer ∈ run.offered jobs) :
    Issued registry seeds (passed ++ [run]) run.store.size offer := by
  obtain ⟨job, hjob, h⟩ := List.mem_flatMap.1 h
  split at h
  · next source hsource =>
      obtain ⟨products, hproducts⟩ := hanswered job hjob
      rw [Job.products_of_answer hproducts] at h
      obtain ⟨concept, hconcept, rfl⟩ := List.mem_map.1 h
      rw [Job.answer_of_get? hsource] at hproducts
      exact .product (List.mem_append_right _ List.mem_cons_self) le_rfl (hjobs ▸ hjob) hsource
        hproducts hconcept
  · cases h

end Issued

/-! ## Attributed states -/

/-- The stored concept has entered the store as this offer. -/
structure Became (settings : Settings) (run : Run) (entry : Entry) (offer : Offer) : Prop where
  key : offer.concept.key = entry.key
  origin : offer.origin = entry.origin
  parent : run.parentOf? entry.id = offer.parent
  depth : run.depthOf entry.id = offer.depth
  shallow : offer.depth ≤ settings.maxDepth

/-- Every offer that waits or is still to come was issued, and every stored concept
has entered the store as an issued offer. -/
structure Attributed (registry : Registry) (settings : Settings) (seeds : List Concept)
    (passed : List Run) (run : Run) (rest : List Offer) : Prop where
  wellFormed : run.store.WellFormed
  aligned : run.Aligned
  waiting : ∀ offer ∈ run.deferred ++ rest, Issued registry seeds passed run.store.size offer
  stored : ∀ {id : ConceptId} {entry : Entry}, run.store.get? id = some entry →
    ∃ offer, Issued registry seeds passed entry.id.index offer ∧ Became settings run entry offer

/-- The states have the same store, and tell the same of where its concepts came from. -/
structure SameLineage (next run : Run) : Prop where
  store : next.store = run.store
  aligned : next.Aligned
  parentOf? : ∀ id, next.parentOf? id = run.parentOf? id
  depthOf : ∀ id, next.depthOf id = run.depthOf id

namespace SameLineage

theorem of_eq (h : run.Aligned) (hstore : next.store = run.store)
    (hlineage : next.lineage = run.lineage) : SameLineage next run where
  store := hstore
  aligned := by
    unfold Aligned
    rw [hstore, hlineage]
    exact h
  parentOf? id := by rw [parentOf?_eq, parentOf?_eq, hlineage]
  depthOf id := by rw [depthOf_eq, depthOf_eq, hlineage]

theorem mark (h : run.Aligned) (stage : Stage) (ids : List ConceptId) :
    SameLineage (run.mark stage ids) run :=
  ⟨rfl, aligned_mark h, parentOf?_mark run stage ids, depthOf_mark run stage ids⟩

theorem beginWave (h : run.Aligned) : SameLineage run.beginWave run :=
  ⟨rfl, aligned_mark h, parentOf?_mark _ .expanding run.wave, depthOf_mark _ .expanding run.wave⟩

theorem beginReview (h : run.Aligned) : SameLineage run.beginReview run :=
  .of_eq h rfl rfl

end SameLineage

/-- No new concept is further from the seeds than the settings allow. -/
theorem depth_le_of_place {admission : Admission} {store : Store}
    (h : run.place settings offer = .ok next)
    (hinsert : run.store.insert offer.concept offer.origin = .ok (admission, store))
    (hnew : admission.isNew = true) : offer.depth ≤ settings.maxDepth := by
  rw [place_eq, hinsert] at h
  dsimp only at h
  split at h
  · cases h
  · next hnot => exact Nat.not_lt.1 fun hlt => hnot ⟨hnew, hlt⟩

namespace Attributed

/-- Placing the next offer keeps the state attributed. -/
theorem place {rest : List Offer} (h : Attributed registry settings seeds passed run (offer :: rest))
    (hplaced : run.place settings offer = .ok next) :
    Attributed registry settings seeds passed next rest := by
  have happends := appends_of_place hplaced
  obtain ⟨admission, store, hinsert, rfl⟩ := insert_of_place hplaced
  have hwellFormed : (run.record offer store admission).store.WellFormed := by
    rw [record_store]
    exact h.wellFormed.insert hinsert
  refine ⟨hwellFormed, happends.aligned h.aligned, ?_, ?_⟩
  · intro other hother
    rw [record_deferred] at hother
    refine (h.waiting other ?_).mono (List.Subset.refl _) happends.size_le
    exact ((List.sublist_cons_self _ _).append_left _).subset hother
  · intro id entry hget
    have hid := hwellFormed.id_of_get? hget
    rw [record_store] at hget
    rcases Store.get?_insert_cases hinsert hget with
      ⟨earlier, hearlier, hkey, horigin⟩ | ⟨hnew, hindex, hkey, horigin⟩
    · obtain ⟨source, hissued, hbecame⟩ := h.stored hearlier
      have hid' : earlier.id = entry.id := (h.wellFormed.id_of_get? hearlier).trans hid.symm
      have hlineage : entry.id.index < run.lineage.size := by
        rw [h.aligned, hid]
        exact index_lt_of_get? hearlier
      refine ⟨source, hid' ▸ hissued, ?_⟩
      exact
        { key := hbecame.key.trans hkey
          origin := hbecame.origin.trans horigin
          parent := by rw [happends.parentOf? hlineage, ← hid', hbecame.parent]
          depth := by rw [happends.depthOf hlineage, ← hid', hbecame.depth]
          shallow := hbecame.shallow }
    · have hissued := h.waiting offer (List.mem_append_right _ List.mem_cons_self)
      have hlast : entry.id.index = run.lineage.size := by rw [hid, hindex, h.aligned]
      have hlineage : (run.record offer store admission).lineage[entry.id.index]? =
          some { parent := offer.parent, depth := offer.depth } := by
        cases admission with
        | admitted =>
            rw [hlast]
            exact Array.getElem?_push_size
        | alreadyPresent | merged => cases hnew
      refine ⟨offer, (hid ▸ hindex) ▸ hissued, ?_⟩
      exact
        { key := hkey.symm
          origin := horigin.symm
          parent := by
            rw [parentOf?_eq, hlineage]
            rfl
          depth := by
            rw [depthOf_eq, hlineage]
            rfl
          shallow := depth_le_of_place hplaced hinsert hnew }

/-- What is stored can be put down to the same offers in every state with the same
store, parents and depths. -/
theorem transfer {passed' : List Run} {rest rest' : List Offer}
    (h : Attributed registry settings seeds passed run rest) (next : Run)
    (hpassed : passed ⊆ passed') (hsame : SameLineage next run)
    (hwaiting : ∀ offer ∈ next.deferred ++ rest',
      Issued registry seeds passed' run.store.size offer) :
    Attributed registry settings seeds passed' next rest' := by
  refine ⟨hsame.store ▸ h.wellFormed, hsame.aligned, hsame.store ▸ hwaiting, ?_⟩
  intro id entry hget
  rw [hsame.store] at hget
  obtain ⟨offer, hissued, hbecame⟩ := h.stored hget
  refine ⟨offer, hissued.mono hpassed le_rfl, ?_⟩
  exact { hbecame with
    parent := (hsame.parentOf? _).trans hbecame.parent
    depth := (hsame.depthOf _).trans hbecame.depth }

/-- A state between two batches with the same store, deferred offers, parents and
depths is attributed too, and so it is once more states have been passed. -/
theorem congr {passed' : List Run} (h : Attributed registry settings seeds passed run [])
    (hpassed : passed ⊆ passed') (hsame : SameLineage next run)
    (hdeferred : next.deferred = run.deferred) :
    Attributed registry settings seeds passed' next [] := by
  apply h.transfer next hpassed hsame
  intro offer hoffer
  rw [hdeferred] at hoffer
  exact (h.waiting offer hoffer).mono hpassed le_rfl

end Attributed

/-- While offers are taken in, the state stays attributed. -/
theorem throughout_attributed (registry : Registry) (settings : Settings) (seeds : List Concept)
    (passed : List Run) :
    Throughout settings (fun _ => True) (Attributed registry settings seeds passed) where
  reject _ _ := trivial
  defer {run offer rest target} hrun _ _ := by
    have hsplit : run.deferred ++ [offer] ++ rest = run.deferred ++ offer :: rest := by simp
    exact hrun.transfer _ (List.Subset.refl _) (.of_eq hrun.aligned rfl rfl)
      (hsplit ▸ hrun.waiting)
  place {run offer rest} hrun _ := by
    cases hplaced : run.place settings offer with
    | error error => trivial
    | ok next => exact hrun.place hplaced
  pass {run} hrun := by
    have hrest : run.deferred ++ [] = run.deferred := List.append_nil _
    exact hrun.transfer _ (List.Subset.refl _) (.of_eq hrun.aligned rfl rfl)
      (hrest ▸ hrun.waiting)

/-! ## Attribution along a course -/

/-- Before the seeds are taken in they are what is still to come. -/
theorem attributed_beforeSeeds (registry : Registry) (settings : Settings)
    (seeds : List Concept) :
    Attributed registry settings seeds [] (beforeSeeds registry seeds.length)
      (Offer.ofSeeds seeds) := by
  refine ⟨Store.wellFormed_empty _, rfl, fun offer hoffer => .of_mem_ofSeeds hoffer, ?_⟩
  intro id entry hget
  cases hget

/-- A batch that begins where the run stands, with its jobs, ends attributed. -/
theorem Attributed.runBatch (h : Attributed registry settings seeds passed run [])
    (begun : Run) (hsame : SameLineage begun run) (hdeferred : begun.deferred = run.deferred)
    (hjobs : jobs = run.batchJobs registry) (hsourced : begun.Sourced jobs)
    (hbatch : begun.runBatch settings jobs = .ok batch) :
    Attributed registry settings seeds (passed ++ [run]) batch [] := by
  have hbegun : begun.store.WellFormed := hsame.store ▸ h.wellFormed
  have hanswered : run.Answered jobs := by
    have hanswered := answered_of_runBatch hbegun hsourced hbatch
    unfold Answered at hanswered ⊢
    rwa [hsame.store] at hanswered
  have hoffered : begun.offered jobs = run.offered jobs := by
    unfold offered offersOf
    simp only [hsame.store, hsame.depthOf]
  have hbegin : Attributed registry settings seeds (passed ++ [run])
      (begun.charged jobs).beginBatch (begun.offered jobs) := by
    apply h.transfer (begun.charged jobs).beginBatch (List.subset_append_left _ _) { hsame with }
    intro offer hoffer
    rcases List.mem_append.1 hoffer with hwaiting | hnew
    · have hwaiting : offer ∈ begun.deferred := hwaiting
      rw [hdeferred] at hwaiting
      exact (h.waiting offer (List.mem_append_left _ hwaiting)).mono
        (List.subset_append_left _ _) le_rfl
    · exact .of_mem_offered hanswered hjobs (hoffered ▸ hnew)
  exact (throughout_attributed registry settings seeds _).runBatch hbegun hsame.aligned hsourced
    hbatch hbegin

/-- In every state of a run all that waits or is stored can be put down to the seeds
and the batches so far. -/
theorem Course.attributed (h : Course registry settings seeds passed run) :
    Attributed registry settings seeds passed run [] := by
  induction h with
  | start h =>
      have hbegin := attributed_beforeSeeds registry settings seeds
      exact ((throughout_attributed registry settings seeds []).start hbegin).of_ok h
  | @step passed run next hrun hphase h ih =>
      have hreach := hrun.reachable
      have hwellFormed := hreach.accounts.wellFormed
      have hpassed : passed ⊆ passed ++ [run] := List.subset_append_left _ _
      cases move_of_step h with
      | turn | idle => exact ih.congr hpassed (.of_eq ih.aligned rfl rfl) rfl
      | @wave batch hexpanding hbatch =>
          have hbatch' := ih.runBatch run.beginWave (.beginWave ih.aligned) rfl
            (batchJobs_of_expanding hexpanding).symm (sourced_waveJobs registry _ _) hbatch
          exact hbatch'.congr (List.Subset.refl _) (.mark hbatch'.aligned _ _) rfl
      | @round batch hreviewing hbatch =>
          have hbatch' := ih.runBatch run.beginReview (.beginReview ih.aligned) rfl
            (batchJobs_of_reviewing hreviewing).symm (sourced_reviewJobs registry hwellFormed) hbatch
          exact hbatch'.congr (List.Subset.refl _) (.of_eq hbatch'.aligned rfl rfl) rfl
      | rest hsettled => exact absurd hsettled hphase

/-! ## Lineages along a course -/

/-- The later state has all the concepts of the earlier one, with the same parents and
depths. -/
structure Extends (run next : Run) : Prop where
  size_le : run.store.size ≤ next.store.size
  parentOf? : ∀ {id : ConceptId}, id.index < run.store.size →
    next.parentOf? id = run.parentOf? id
  depthOf : ∀ {id : ConceptId}, id.index < run.store.size → next.depthOf id = run.depthOf id

namespace Extends

theorem refl (run : Run) : Extends run run :=
  ⟨le_rfl, fun _ => rfl, fun _ => rfl⟩

theorem trans {a b c : Run} (hab : Extends a b) (hbc : Extends b c) : Extends a c where
  size_le := hab.size_le.trans hbc.size_le
  parentOf? hid := (hbc.parentOf? (hid.trans_le hab.size_le)).trans (hab.parentOf? hid)
  depthOf hid := (hbc.depthOf (hid.trans_le hab.size_le)).trans (hab.depthOf hid)

theorem mark (run : Run) (stage : Stage) (ids : List ConceptId) :
    Extends run (run.mark stage ids) :=
  ⟨le_rfl, fun _ => parentOf?_mark run stage ids _, fun _ => depthOf_mark run stage ids _⟩

end Extends

theorem Appends.extends_of_aligned (h : Appends run next) (haligned : run.Aligned) :
    Extends run next :=
  ⟨h.size_le, fun hid => h.parentOf? (haligned ▸ hid), fun hid => h.depthOf (haligned ▸ hid)⟩

theorem Reachable.extends_of_step (hrun : Reachable registry settings seeds run)
    (h : run.step registry settings = .ok next) : Extends run next := by
  have hwellFormed := hrun.accounts.wellFormed
  have haligned := hrun.aligned
  cases move_of_step h with
  | turn | idle | rest => exact ⟨le_rfl, fun _ => rfl, fun _ => rfl⟩
  | @wave batch _ hbatch =>
      have hbegin : run.beginWave.beginBatch.Aligned := aligned_mark haligned
      have hmarked : Extends run run.beginWave.beginBatch :=
        { Extends.mark run .expanding run.wave with }
      have hbatch' := (appends_of_wave hwellFormed haligned hbatch).extends_of_aligned hbegin
      exact (hmarked.trans hbatch').trans (.mark batch .expanded run.wave)
  | @round batch _ hbatch =>
      have hbegin : run.beginReview.beginBatch.Aligned := haligned
      have hbatch' := (appends_of_round hwellFormed haligned hbatch).extends_of_aligned hbegin
      exact { hbatch' with }

/-- A state that has been passed is extended by all that follow. -/
theorem Course.extends_of_mem (h : Course registry settings seeds passed run) {earlier : Run}
    (hearlier : earlier ∈ passed) : Extends earlier run := by
  induction h with
  | start => cases hearlier
  | @step passed run next hrun _ h ih =>
      have hstep := hrun.reachable.extends_of_step h
      rcases List.mem_append.1 hearlier with hearlier | hlast
      · exact (ih hearlier).trans hstep
      · rw [List.mem_singleton.1 hlast]
        exact hstep

end Run

end ConceptExpansion
