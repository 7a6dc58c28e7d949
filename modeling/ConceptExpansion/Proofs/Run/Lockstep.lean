/-
# Twins stay in lockstep

Under rules that ignore the positions of seeds, twin runs go through the same
motions: they form the same waves and jobs, get the same answers, and take them
in as twins. Step by step they stay twins until both settle, and what they end
with is the same model up to positions, or a failure of the same kind at the same
concept.
-/

import ConceptExpansion.Proofs.Run.Exchange
import ConceptExpansion.Proofs.Run.Reachable

namespace ConceptExpansion

/-- The rule does not look at the positions of seeds in the origins of stored
concepts. -/
def Rule.IgnoresPositions (rule : Rule) : Prop :=
  ∀ (concept : Concept) {store store' : Store}, store.Alike store' →
    rule.expand concept store = rule.expand concept store'

/-- No rule of the registry looks at the positions of seeds. -/
def Registry.IgnoresPositions (registry : Registry) : Prop :=
  ∀ kind, ∀ rule ∈ registry.rulesFor kind, rule.IgnoresPositions

namespace Run

variable {registry : Registry} {settings : Settings} {a b : Run} {jobs : List Job}

/-! ## Lists of offers -/

/-- Twins that take in reordered offers agree, if they do so for a single offer
and for two offers of one key. -/
theorem foldlM_together {f : Run → Offer → Except ExpansionError Run}
    (hsame : ∀ {a b : Run} {offer offer' : Offer}, Twin a b → offer.Alike offer' →
      Together (f a offer) (f b offer'))
    (hswap : ∀ {run : Run} {offer offer' : Offer}, run.store.WellFormed →
      offer.Exchangeable offer' →
        Together (f run offer >>= fun next => f next offer')
          (f run offer' >>= fun next => f next offer))
    {l l' : List Offer} (hoffers : Offer.Reordered l l') (h : Twin a b) :
    Together (l.foldlM f a) (l'.foldlM f b) := by
  have hlist : ∀ {a b : Run} (l : List Offer), Twin a b →
      Together (l.foldlM f a) (l.foldlM f b) := fun l h =>
    Agree.foldlM (fun offer _ h => hsame h (.refl offer)) h
  induction hoffers generalizing a b with
  | nil => exact .ok h
  | cons hfirst _ ih =>
      rw [List.foldlM_cons, List.foldlM_cons]
      exact Agree.bind (hsame h hfirst) ih
  | @swap x y hexchange l =>
      have hleft : Together ((x :: y :: l).foldlM f a) ((y :: x :: l).foldlM f a) := by
        simp only [List.foldlM_cons, ← bind_assoc]
        exact Agree.bind (hswap h.left hexchange) (hlist l)
      exact hleft.trans (hlist (y :: x :: l) h)
  | trans _ _ ih ih' => exact (ih (.refl h.left)).trans (ih' h)

theorem retryPass_together (h : Twin a b) :
    Together (a.retryPass settings) (b.retryPass settings) := by
  have hempty : Twin { a with deferred := [] } { b with deferred := [] } :=
    { h with deferred := .nil }
  exact foldlM_together reconsider_together reconsider_swap h.deferred hempty

theorem retry_together (h : Twin a b) : Together (a.retry settings) (b.retry settings) := by
  fun_induction retry settings a generalizing b with
  | case1 a error ha =>
      have hpass : Together (a.retryPass settings) (b.retryPass settings) := retryPass_together h
      rw [ha] at hpass
      obtain ⟨error', hb, halike⟩ := hpass.of_error
      rw [retry_of_pass_error hb]
      exact .error halike
  | case2 a next ha hlt ih =>
      have hpass : Together (a.retryPass settings) (b.retryPass settings) := retryPass_together h
      rw [ha] at hpass
      obtain ⟨next', hb, hnext⟩ := hpass.of_ok
      rw [hnext.deferred.length_eq, h.deferred.length_eq] at hlt
      rw [retry_of_lt hb hlt]
      exact ih hnext
  | case3 a next ha hnlt =>
      have hpass : Together (a.retryPass settings) (b.retryPass settings) := retryPass_together h
      rw [ha] at hpass
      obtain ⟨next', hb, hnext⟩ := hpass.of_ok
      rw [hnext.deferred.length_eq, h.deferred.length_eq] at hnlt
      rw [retry_of_not_lt hb hnlt]
      exact .ok hnext

/-! ## Batches -/

theorem Twin.seeds (h : Twin a b) : a.stats.seeds = b.stats.seeds := by
  have hpooled : a.stats.pooled.seeds = b.stats.pooled.seeds := by rw [h.stats]
  exact hpooled

theorem Twin.ruleInvocations (h : Twin a b) :
    a.stats.ruleInvocations = b.stats.ruleInvocations := by
  have hpooled : a.stats.pooled.ruleInvocations = b.stats.pooled.ruleInvocations := by
    rw [h.stats]
  exact hpooled

theorem twin_charged (h : Twin a b) (jobs : List Job) : Twin (a.charged jobs) (b.charged jobs) := by
  have hstats := congrArg (fun stats : Stats =>
    { stats with ruleInvocations := stats.ruleInvocations + jobs.length }) h.stats
  exact { h with stats := hstats }

theorem charge_together (h : Twin a b) :
    Together (a.charge settings jobs) (b.charge settings jobs) := by
  unfold charge
  dsimp only
  by_cases hbudget : settings.budget a.stats.seeds - a.stats.ruleInvocations < jobs.length
  · have hbudget' : settings.budget b.stats.seeds - b.stats.ruleInvocations < jobs.length := by
      rwa [← h.seeds, ← h.ruleInvocations]
    rw [dif_pos hbudget, dif_pos hbudget']
    refine .error ⟨rfl, ?_⟩
    show List.getLast? _ = List.getLast? _
    simp only [h.seeds, h.ruleInvocations]
    exact h.chain _
  · have hbudget' : ¬ settings.budget b.stats.seeds - b.stats.ruleInvocations < jobs.length := by
      rwa [← h.seeds, ← h.ruleInvocations]
    rw [dif_neg hbudget, dif_neg hbudget']
    exact .ok (twin_charged h jobs)

theorem absorb_together (h : Twin a b)
    (answered : Job × Except RuleFailure (List Concept)) :
    Together (a.absorb settings answered) (b.absorb settings answered) := by
  obtain ⟨job, answer⟩ := answered
  unfold absorb
  dsimp only
  obtain ⟨ha, hb⟩ | ⟨e, e', ha, hb, he⟩ := h.store.get? job.source
  · rw [ha, hb]
    exact .ok h
  · rw [ha, hb]
    dsimp only
    rw [he.key]
    cases answer with
    | error failure => exact .error (.refl _)
    | ok products =>
        have hdepth : a.depthOf job.source = b.depthOf job.source := by
          unfold depthOf
          rw [h.lineage]
        dsimp only
        unfold offersOf
        rw [hdepth]
        exact foldlM_together receive_together receive_swap (.refl _) h

/-- Rules that ignore positions answer twins alike. -/
theorem answer_eq (h : Twin a b) {job : Job} (hrule : job.rule.IgnoresPositions) :
    job.answer a.store = job.answer b.store := by
  unfold Job.answer
  obtain ⟨ha, hb⟩ | ⟨e, e', ha, hb, he⟩ := h.store.get? job.source
  · rw [ha, hb]
  · rw [ha, hb]
    dsimp only
    rw [he.concept]
    exact hrule e'.concept h.store

theorem runBatch_together (h : Twin a b) (hrules : ∀ job ∈ jobs, job.rule.IgnoresPositions) :
    Together (a.runBatch settings jobs) (b.runBatch settings jobs) := by
  unfold runBatch
  apply Agree.bind (charge_together h)
  intro a' b' h'
  have hanswers : jobs.map (Job.answer a'.store) = jobs.map (Job.answer b'.store) :=
    List.map_congr_left fun job hjob => answer_eq h' (hrules job hjob)
  have hbegin : Twin a'.beginBatch b'.beginBatch :=
    { h' with fresh := rfl, changed := rfl }
  dsimp only
  rw [hanswers]
  apply Agree.bind (Agree.foldlM (fun answered _ h => absorb_together h answered) hbegin)
  exact retry_together

/-! ## Steps -/

theorem wave_eq (h : Twin a b) : a.wave = b.wave := by
  have hkeyAtMost : a.keyAtMost = b.keyAtMost := by
    funext x y
    unfold keyAtMost
    obtain ⟨hx, hx'⟩ | ⟨e, e', hx, hx', he⟩ := h.store.get? x
    · rw [hx, hx']
    · rw [hx, hx']
      obtain ⟨hy, hy'⟩ | ⟨f, f', hy, hy', hf⟩ := h.store.get? y
      · rw [hy, hy']
      · rw [hy, hy']
        dsimp only
        rw [he.key, hf.key]
  unfold wave
  rw [h.fresh, hkeyAtMost]

theorem waveJobs_eq (h : Twin a b) (ids : List ConceptId) :
    a.waveJobs registry ids = b.waveJobs registry ids := by
  unfold waveJobs
  congr 1
  funext id
  obtain ⟨ha, hb⟩ | ⟨e, e', ha, hb, he⟩ := h.store.get? id
  · rw [ha, hb]
  · rw [ha, hb]
    dsimp only
    rw [he.concept]

theorem reviewJobs_eq (h : Twin a b) : a.reviewJobs registry = b.reviewJobs registry := by
  have hkind : ∀ kind, (a.store.ofKind kind).map (·.id) = (b.store.ofKind kind).map (·.id) := by
    intro kind
    have hforget : (a.store.ofKind kind).map Entry.forgetPosition =
        (b.store.ofKind kind).map Entry.forgetPosition := by
      rw [← Store.ofKind_forgetPositions, ← Store.ofKind_forgetPositions, h.store]
    have hids := congrArg (List.map (·.id)) hforget
    rwa [List.map_map, List.map_map] at hids
  have hjobs : ∀ (entries : List Entry) (rules : List Rule),
      (entries.flatMap fun entry => rules.map fun rule => (⟨entry.id, rule⟩ : Job)) =
        (entries.map (·.id)).flatMap fun id => rules.map fun rule => ⟨id, rule⟩ := by
    intro entries rules
    rw [List.flatMap_map]
  unfold reviewJobs
  congr 1
  funext kind
  rw [hjobs, hjobs, hkind]

theorem twin_mark (h : Twin a b) (stage : Stage) (ids : List ConceptId) :
    Twin (a.mark stage ids) (b.mark stage ids) := by
  have hlineage : (a.mark stage ids).lineage = (b.mark stage ids).lineage := by
    show List.foldl _ a.lineage ids = List.foldl _ b.lineage ids
    rw [h.lineage]
  exact { h with lineage := hlineage }

theorem twin_beginWave (h : Twin a b) : Twin a.beginWave b.beginWave := by
  have hstats := congrArg (fun stats : Stats => { stats with waves := stats.waves + 1 }) h.stats
  unfold beginWave
  rw [wave_eq h]
  apply twin_mark
  exact { h with stats := hstats }

theorem twin_beginReview (h : Twin a b) : Twin a.beginReview b.beginReview := by
  have hstats := congrArg (fun stats : Stats =>
    { stats with reviewRounds := stats.reviewRounds + 1 }) h.stats
  exact { h with stats := hstats }

theorem expandWave_together (hrules : registry.IgnoresPositions) (h : Twin a b) :
    Together (a.expandWave registry settings) (b.expandWave registry settings) := by
  have hjobs : ∀ job ∈ b.beginWave.waveJobs registry b.wave, job.rule.IgnoresPositions := by
    intro job hjob
    obtain ⟨-, entry, -, hrule⟩ := mem_waveJobs.1 hjob
    exact hrules _ _ hrule
  have hbatch : Together (a.beginWave.runBatch settings (b.beginWave.waveJobs registry b.wave))
      (b.beginWave.runBatch settings (b.beginWave.waveJobs registry b.wave)) :=
    runBatch_together (twin_beginWave h) hjobs
  unfold expandWave
  rw [waveJobs_eq (twin_beginWave h), wave_eq h]
  obtain ⟨next, next', hleft, hright, hnext⟩ | ⟨error, error', hleft, hright, halike⟩ :=
    hbatch.ok_or_error
  · rw [hleft, hright]
    exact .ok (twin_mark hnext .expanded b.wave)
  · rw [hleft, hright]
    exact .error halike

theorem review_together (hrules : registry.IgnoresPositions) (h : Twin a b) :
    Together (a.review registry settings) (b.review registry settings) := by
  have hjobs : ∀ job ∈ b.reviewJobs registry, job.rule.IgnoresPositions := by
    intro job hjob
    obtain ⟨entry, -, hrule, -⟩ := (mem_reviewJobs h.right).1 hjob
    exact hrules _ _ hrule
  unfold review
  rw [reviewJobs_eq h]
  cases hreview : b.reviewJobs registry with
  | nil =>
      exact .ok { h with fresh := rfl, changed := rfl, phase := rfl }
  | cons job jobs =>
      rw [hreview] at hjobs
      have hbatch : Together (a.beginReview.runBatch settings (job :: jobs))
          (b.beginReview.runBatch settings (job :: jobs)) :=
        runBatch_together (twin_beginReview h) hjobs
      dsimp only
      obtain ⟨next, next', hleft, hright, hnext⟩ | ⟨error, error', hleft, hright, halike⟩ :=
        hbatch.ok_or_error
      · rw [hleft, hright]
        have hphase : (if next.changed then Phase.expanding else .settled) =
            if next'.changed then .expanding else .settled := by rw [hnext.changed]
        exact .ok { hnext with phase := hphase }
      · rw [hleft, hright]
        exact .error halike

theorem step_together (hrules : registry.IgnoresPositions) (h : Twin a b) :
    Together (a.step registry settings) (b.step registry settings) := by
  unfold step
  rw [h.phase, h.fresh]
  cases b.phase with
  | expanding =>
      dsimp only
      split
      · exact .ok { h with fresh := rfl, phase := rfl }
      · exact expandWave_together hrules h
  | reviewing => exact review_together hrules h
  | settled => exact .ok h

theorem toFixpoint_together (hrules : registry.IgnoresPositions) (h : Twin a b) :
    Together (a.toFixpoint registry settings) (b.toFixpoint registry settings) := by
  fun_induction Run.toFixpoint registry settings a generalizing b with
  | case1 a hphase =>
      rw [toFixpoint_of_settled (h.phase.symm.trans hphase)]
      exact .ok h
  | case2 a hphase error hstep =>
      have hsteps : Together (a.step registry settings) (b.step registry settings) :=
        step_together hrules h
      rw [hstep] at hsteps
      obtain ⟨error', hstep', halike⟩ := hsteps.of_error
      rw [toFixpoint_of_step_error hstep']
      exact .error halike
  | case3 a hphase next hstep ih =>
      have hsteps : Together (a.step registry settings) (b.step registry settings) :=
        step_together hrules h
      rw [hstep] at hsteps
      obtain ⟨next', hstep', hnext⟩ := hsteps.of_ok
      rw [toFixpoint_of_step hstep']
      exact ih hnext

end Run

end ConceptExpansion
