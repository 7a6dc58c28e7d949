/-
# Nothing comes from nowhere

A set of concepts spans a run if it spans the store of the run and contains all
that waits. A run stays spanned as long as every offer is from the set, and the
offers of a batch are what its rules answer.
-/

import ConceptExpansion.Proofs.Run.Reachable
import ConceptExpansion.Proofs.Store.Spanning

namespace ConceptExpansion

variable {concepts : Concept → Prop}

/-! ## Spanned runs -/

namespace Run

variable {registry : Registry} {settings : Settings} {seeds : List Concept}
  {run next : Run} {offer : Offer} {jobs : List Job}

/-- The set accounts for every stored concept and contains every deferred one. -/
structure SpannedBy (concepts : Concept → Prop) (run : Run) : Prop where
  wellFormed : run.store.WellFormed
  stored : run.store.SpannedBy concepts
  deferred : ∀ offer ∈ run.deferred, concepts offer.concept

theorem SpannedBy.imp {concepts' : Concept → Prop} (h : run.SpannedBy concepts)
    (himp : ∀ {concept}, concepts concept → concepts' concept) : run.SpannedBy concepts' where
  wellFormed := h.wellFormed
  stored := h.stored.imp himp
  deferred offer hoffer := himp (h.deferred offer hoffer)

theorem spannedBy_of_place (hrun : run.SpannedBy concepts) (hoffer : concepts offer.concept)
    (h : run.place settings offer = .ok next) : next.SpannedBy concepts := by
  obtain ⟨admission, store, hinsert, rfl⟩ := insert_of_place h
  refine ⟨?_, ?_, ?_⟩
  · rw [record_store]
    exact hrun.wellFormed.insert hinsert
  · rw [record_store]
    exact hrun.stored.insert hrun.wellFormed hoffer hinsert
  · rw [record_deferred]
    exact hrun.deferred

theorem spannedBy_of_defer (hrun : run.SpannedBy concepts) (hoffer : concepts offer.concept)
    (stats : Stats) :
    SpannedBy concepts { run with deferred := run.deferred ++ [offer], stats := stats } := by
  refine ⟨hrun.wellFormed, hrun.stored, fun other hother => ?_⟩
  rcases List.mem_append.1 hother with hother | hother
  · exact hrun.deferred other hother
  · rw [List.mem_singleton.1 hother]
    exact hoffer

theorem spannedBy_of_receive (hrun : run.SpannedBy concepts) (hoffer : concepts offer.concept)
    (h : run.receive settings offer = .ok next) : next.SpannedBy concepts := by
  obtain ⟨-, ⟨target, -, rfl⟩ | ⟨-, hplace⟩⟩ := receive_cases h
  · exact spannedBy_of_defer hrun hoffer _
  · exact spannedBy_of_place hrun hoffer hplace

theorem spannedBy_of_reconsider (hrun : run.SpannedBy concepts)
    (hoffer : concepts offer.concept) (h : run.reconsider settings offer = .ok next) :
    next.SpannedBy concepts := by
  obtain ⟨target, -, rfl⟩ | ⟨-, hplace⟩ := reconsider_cases h
  · exact spannedBy_of_defer hrun hoffer run.stats
  · exact spannedBy_of_place hrun hoffer hplace

/-- What every step of a fold keeps, the fold keeps. -/
theorem invariant_of_foldlM {α : Type} {P : Run → Prop}
    {f : Run → α → Except ExpansionError Run} {l : List α}
    (hstep : ∀ {run next : Run}, ∀ a ∈ l, P run → f run a = .ok next → P next)
    (hrun : P run) (h : l.foldlM f run = .ok next) : P next := by
  induction l generalizing run with
  | nil =>
      cases h
      exact hrun
  | cons a l ih =>
      rw [List.foldlM_cons] at h
      obtain ⟨middle, hf, h⟩ := exists_of_bind_eq_ok h
      have hmiddle := hstep a List.mem_cons_self hrun hf
      exact ih (fun b hb => hstep b (List.mem_cons_of_mem _ hb)) hmiddle h

theorem spannedBy_of_retry (hrun : run.SpannedBy concepts)
    (h : run.retry settings = .ok next) : next.SpannedBy concepts := by
  have hpass : ∀ {run next : Run}, run.SpannedBy concepts →
      run.retryPass settings = .ok next → next.SpannedBy concepts := by
    intro run next hrun h
    have hempty : SpannedBy concepts { run with deferred := [] } :=
      ⟨hrun.wellFormed, hrun.stored, by simp⟩
    apply invariant_of_foldlM (fun offer hoffer hmiddle => ?_) hempty h
    exact spannedBy_of_reconsider hmiddle (hrun.deferred offer hoffer)
  fun_induction retry settings run with
  | case1 run error hrun => cases h
  | case2 run middle hmiddle hlt ih => exact ih (hpass hrun hmiddle) h
  | case3 run middle hmiddle hnlt =>
      cases h
      exact hpass hrun hmiddle

/-- The set contains what the rules answer to the jobs, as the store stands. -/
def Answers (concepts : Concept → Prop) (run : Run) (jobs : List Job) : Prop :=
  ∀ job ∈ jobs, ∀ {entry : Entry}, run.store.get? job.source = some entry →
    ∀ {products : List Concept}, job.rule.expand entry.concept run.store = .ok products →
      ∀ product ∈ products, concepts product

theorem spannedBy_of_absorb {job : Job} {answer : Except RuleFailure (List Concept)}
    (hrun : run.SpannedBy concepts)
    (hanswer : ∀ products, answer = .ok products → ∀ product ∈ products, concepts product)
    (h : run.absorb settings (job, answer) = .ok next) : next.SpannedBy concepts := by
  obtain ⟨-, rfl⟩ | ⟨entry, products, -, hproducts, hreceive⟩ := absorb_cases h
  · exact hrun
  · apply invariant_of_foldlM (fun offer hoffer hmiddle => ?_) hrun hreceive
    obtain ⟨product, hproduct, rfl⟩ := List.mem_map.1 hoffer
    exact spannedBy_of_receive hmiddle (hanswer products hproducts product hproduct)

theorem spannedBy_of_runBatch (hrun : run.SpannedBy concepts)
    (hanswers : Answers concepts run jobs) (h : run.runBatch settings jobs = .ok next) :
    next.SpannedBy concepts := by
  obtain ⟨-, absorbed, habsorb, hretry⟩ := runBatch_ok_cases h
  have hbegin : (run.charged jobs).beginBatch.SpannedBy concepts :=
    { hrun with }
  rw [← List.map_prod_left_eq_zip] at habsorb
  refine spannedBy_of_retry ?_ hretry
  apply invariant_of_foldlM (fun answered hanswered hmiddle => ?_) hbegin habsorb
  obtain ⟨job, hjob, rfl⟩ := List.mem_map.1 hanswered
  apply spannedBy_of_absorb hmiddle
  intro products hproducts
  unfold Job.answer at hproducts
  split at hproducts
  · next entry hentry => exact hanswers job hjob hentry hproducts
  · cases hproducts
    simp

/-! ## Spanned states -/

/-- The set contains the seeds and, whenever it spans a state, what any rule
answers there about a stored concept of its kind. -/
structure Closed (registry : Registry) (seeds : List Concept) (concepts : Concept → Prop) :
    Prop where
  seed : ∀ seed ∈ seeds, concepts seed
  product : ∀ {store : Store} {entry : Entry} {rule : Rule} {products : List Concept},
    store.schema = registry.schema → store.schema.SpannedBy concepts entry.concept →
      rule ∈ registry.rulesFor entry.concept.kind →
        rule.expand entry.concept store = .ok products → ∀ product ∈ products, concepts product

theorem spannedBy_of_start (hseeds : ∀ seed ∈ seeds, concepts seed)
    (h : Run.start registry settings seeds = .ok run) : run.SpannedBy concepts := by
  obtain ⟨offered, hoffered, hretry⟩ := start_ok h
  have hempty : (beforeSeeds registry seeds.length).SpannedBy concepts :=
    ⟨Store.wellFormed_empty _, fun _ _ hget => (by cases hget), fun _ hmem => (by cases hmem)⟩
  refine spannedBy_of_retry ?_ hretry
  apply invariant_of_foldlM (fun offer hoffer hmiddle => ?_) hempty hoffered
  obtain ⟨position, seed, hseed, rfl⟩ := mem_ofSeeds.1 hoffer
  exact spannedBy_of_receive hmiddle (hseeds seed (List.mem_of_getElem? hseed))

/-- A set that spans a state and contains what any rule answers there spans the next
state too. -/
theorem spannedBy_of_move (hrun : run.SpannedBy concepts)
    (hproducts : ∀ {id : ConceptId} {entry : Entry} {rule : Rule} {products : List Concept},
      run.store.get? id = some entry → rule ∈ registry.rulesFor entry.concept.kind →
        rule.expand entry.concept run.store = .ok products →
          ∀ product ∈ products, concepts product)
    (h : Move registry settings run next) : next.SpannedBy concepts := by
  have hanswers : ∀ {begun : Run} {jobs : List Job}, begun.store = run.store →
      (∀ job ∈ jobs, ∃ entry, run.store.get? job.source = some entry ∧
        job.rule ∈ registry.rulesFor entry.concept.kind) → Answers concepts begun jobs := by
    intro begun jobs hstore hjobs job hjob entry hentry products hanswer
    obtain ⟨other, hother, hrule⟩ := hjobs job hjob
    rw [hstore] at hentry hanswer
    obtain rfl : other = entry := Option.some.inj (hother.symm.trans hentry)
    exact hproducts hentry hrule hanswer
  cases h with
  | turn | idle | rest => exact { hrun with }
  | @wave batch _ hbatch =>
      have hbegin : run.beginWave.SpannedBy concepts := { hrun with }
      have hnext := spannedBy_of_runBatch hbegin
        (hanswers rfl fun job hjob => (mem_waveJobs.1 hjob).2) hbatch
      exact { hnext with }
  | @round batch _ hbatch =>
      have hbegin : run.beginReview.SpannedBy concepts := { hrun with }
      have hjobs : ∀ job ∈ run.reviewJobs registry, ∃ entry,
          run.store.get? job.source = some entry ∧
            job.rule ∈ registry.rulesFor entry.concept.kind := fun job hjob => by
        obtain ⟨entry, hentry, hrule, -⟩ := (mem_reviewJobs hrun.wellFormed).1 hjob
        exact ⟨entry, hentry, hrule⟩
      have hnext := spannedBy_of_runBatch hbegin (hanswers rfl hjobs) hbatch
      exact { hnext with }

/-- A closed set of concepts spans every state of a run. -/
theorem Reachable.spannedBy (hclosed : Closed registry seeds concepts)
    (h : Reachable registry settings seeds run) : run.SpannedBy concepts := by
  induction h with
  | start h => exact spannedBy_of_start hclosed.seed h
  | @step run next hrun h ih =>
      apply spannedBy_of_move ih (fun hentry hrule hproducts => ?_) (move_of_step h)
      exact hclosed.product hrun.accounts.schema (ih.stored _ _ hentry) hrule hproducts

/-! ## What arises in a run -/

/-- The concept is a seed, or a rule of a stored concept's kind has answered it in a state
whose store has grown into this one. -/
inductive Arisen (registry : Registry) (settings : Settings) (seeds : List Concept)
    (store : Store) : Concept → Prop
  | seed {seed : Concept} (hseed : seed ∈ seeds) : Arisen registry settings seeds store seed
  | product {earlier : Run} {id : ConceptId} {source : Entry} {rule : Rule}
      {products : List Concept} {product : Concept}
      (hearlier : Reachable registry settings seeds earlier)
      (hgrows : earlier.store.Grows store) (hsource : earlier.store.get? id = some source)
      (hrule : rule ∈ registry.rulesFor source.concept.kind)
      (hproducts : rule.expand source.concept earlier.store = .ok products)
      (hproduct : product ∈ products) : Arisen registry settings seeds store product

theorem Arisen.grows {store later : Store} {concept : Concept}
    (h : Arisen registry settings seeds store concept) (hgrows : store.Grows later) :
    Arisen registry settings seeds later concept := by
  cases h with
  | seed hseed => exact .seed hseed
  | product hearlier hgrown hsource hrule hproducts hproduct =>
      exact .product hearlier (hgrown.trans hgrows) hsource hrule hproducts hproduct

/-- What has arisen in a run spans every state of it. -/
theorem Reachable.spannedBy_arisen (h : Reachable registry settings seeds run) :
    run.SpannedBy (Arisen registry settings seeds run.store) := by
  induction h with
  | start h => exact spannedBy_of_start (fun seed hseed => .seed hseed) h
  | @step run next hrun h ih =>
      have hmove := move_of_step h
      obtain ⟨-, hgrows, -⟩ := keeps_of_move ih.wellFormed hmove
      apply spannedBy_of_move (ih.imp fun hconcept => hconcept.grows hgrows) _ hmove
      intro id entry rule products hentry hrule hproducts product hproduct
      exact .product hrun hgrows hentry hrule hproducts hproduct

end Run

end ConceptExpansion
