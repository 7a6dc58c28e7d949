/-
# What other ceilings would have done

The settings enter a run at two points: a new concept is held against the depth
ceiling once it is admitted, and a batch against the budget before any rule is
invoked. Both compare a counter that only rises with a bound that stays. So the
statistics of an expansion that succeeds tell what it would have come to under
other settings. As long as the counters stay within the other ceilings, the run
is the same, state by state; once one of them exceeds its ceiling, the run is
broken off there and then.
-/

import ConceptExpansion.Proofs.Expansion.Ancestry

namespace ConceptExpansion

/-! ## Counters and ceilings -/

namespace Stats

/-- No counter has passed its ceiling. -/
structure Within (stats : Stats) (settings : Settings) : Prop where
  depth : stats.maxDepthReached ≤ settings.maxDepth
  invocations : stats.ruleInvocations ≤ settings.budget stats.seeds

/-- A counter has passed this ceiling. -/
inductive Exceeds (stats : Stats) (settings : Settings) : Ceiling → Prop
  | depth (h : settings.maxDepth < stats.maxDepthReached) :
      Exceeds stats settings (.depth settings.maxDepth)
  | invocations (h : settings.budget stats.seeds < stats.ruleInvocations) :
      Exceeds stats settings (.expansions (settings.budget stats.seeds))

/-- For the same seeds the counters of the ceilings have only risen. -/
structure Rises (stats next : Stats) : Prop where
  seeds : next.seeds = stats.seeds
  depth : stats.maxDepthReached ≤ next.maxDepthReached
  invocations : stats.ruleInvocations ≤ next.ruleInvocations

variable {stats next : Stats} {settings : Settings} {ceiling : Ceiling}

theorem Rises.trans {a b c : Stats} (hab : a.Rises b) (hbc : b.Rises c) : a.Rises c :=
  ⟨hbc.seeds.trans hab.seeds, hab.depth.trans hbc.depth, hab.invocations.trans hbc.invocations⟩

/-- A ceiling that is passed stays passed. -/
theorem Exceeds.rises (h : stats.Exceeds settings ceiling) (hrises : stats.Rises next) :
    next.Exceeds settings ceiling := by
  cases h with
  | depth h => exact .depth (h.trans_le hrises.depth)
  | invocations h =>
      rw [← hrises.seeds] at h ⊢
      exact .invocations (h.trans_le hrises.invocations)

theorem Within.not_exceeds (h : stats.Within settings) : ¬ stats.Exceeds settings ceiling := by
  rintro (hdepth | hinvocations)
  · exact Nat.not_lt.2 h.depth hdepth
  · exact Nat.not_lt.2 h.invocations hinvocations

end Stats

namespace Run

variable {registry : Registry} {settings other : Settings} {seeds : List Concept}
  {stats : Stats} {run next last : Run} {x y : Except ExpansionError Run}

/-! ## Attempts under other ceilings -/

/-- What an attempt comes to under these settings if without ceilings it would end
in `next`: in that state if it is within the ceilings, and else in the error for a
ceiling that it exceeds. -/
inductive Guarded (settings : Settings) (next : Run) : Except ExpansionError Run → Prop
  | within (h : next.stats.Within settings) : Guarded settings next (.ok next)
  | beyond {ceiling : Ceiling} (chain : List Key) (h : next.stats.Exceeds settings ceiling) :
      Guarded settings next (.error (.nonTerminating ceiling chain))

/-- Where the first attempt, which begins with these counters, succeeds, the
counters have only risen, and the second attempt, which is made under other
settings, is guarded by nothing but their ceilings. -/
inductive Gated (other : Settings) (stats : Stats) :
    Except ExpansionError Run → Except ExpansionError Run → Prop
  | ok {next : Run} {y : Except ExpansionError Run} (hrises : stats.Rises next.stats)
      (hother : stats.Within other → Guarded other next y) : Gated other stats (.ok next) y
  | error {e : ExpansionError} {y : Except ExpansionError Run} :
      Gated other stats (.error e) y

namespace Gated

/-- Both attempts go on in a state with the same counters. -/
theorem stay (hseeds : next.stats.seeds = stats.seeds)
    (hdepth : next.stats.maxDepthReached = stats.maxDepthReached)
    (hinvocations : next.stats.ruleInvocations = stats.ruleInvocations) :
    Gated other stats (.ok next) (.ok next) := by
  refine .ok ⟨hseeds, hdepth.ge, hinvocations.ge⟩ fun hwithin => .within ?_
  refine ⟨hdepth.trans_le hwithin.depth, ?_⟩
  rw [hinvocations, hseeds]
  exact hwithin.invocations

/-- Only the counters matter that are held against a ceiling. -/
theorem congr {stats' : Stats} (h : Gated other stats x y) (hseeds : stats.seeds = stats'.seeds)
    (hdepth : stats.maxDepthReached = stats'.maxDepthReached)
    (hinvocations : stats.ruleInvocations = stats'.ruleInvocations) :
    Gated other stats' x y := by
  cases h with
  | error => exact .error
  | ok hrises hother =>
      have hsame : stats'.Rises stats := ⟨hseeds, hdepth.ge, hinvocations.ge⟩
      refine .ok (hsame.trans hrises) fun hwithin => hother ⟨hdepth.trans_le hwithin.depth, ?_⟩
      rw [hinvocations, hseeds]
      exact hwithin.invocations

theorem bind {f g : Run → Except ExpansionError Run} (h : Gated other stats x y)
    (hnext : ∀ middle, x = .ok middle → Gated other middle.stats (f middle) (g middle)) :
    Gated other stats (x >>= f) (y >>= g) := by
  cases h with
  | error => exact .error
  | @ok middle y hrises hother =>
      have hrest := hnext middle rfl
      rw [bind_of_eq_ok rfl]
      cases hlast : f middle with
      | error e => exact .error
      | ok last =>
          rw [hlast] at hrest
          cases hrest with
          | ok hrises' hother' =>
              refine .ok (hrises.trans hrises') fun hwithin => ?_
              cases hother hwithin with
              | within hmiddle => exact hother' hmiddle
              | beyond chain hexceeds => exact .beyond chain (hexceeds.rises hrises')

theorem foldlM {σ : Type} {f g : Run → σ → Except ExpansionError Run}
    (hstep : ∀ run s, Gated other run.stats (f run s) (g run s)) (l : List σ) (run : Run) :
    Gated other run.stats (l.foldlM f run) (l.foldlM g run) := by
  induction l generalizing run with
  | nil => exact .stay rfl rfl rfl
  | cons s l ih =>
      rw [List.foldlM_cons, List.foldlM_cons]
      exact bind (hstep run s) fun middle _ => ih middle

end Gated

/-! ## The two guards -/

theorem maxDepthReached_record (run : Run) (offer : Offer) (store : Store)
    (admission : Admission) :
    (run.record offer store admission).stats.maxDepthReached =
      if admission.isNew then max run.stats.maxDepthReached offer.depth
      else run.stats.maxDepthReached := by
  cases admission <;> rfl

theorem rises_record (run : Run) (offer : Offer) (store : Store) (admission : Admission) :
    run.stats.Rises (run.record offer store admission).stats := by
  cases admission with
  | admitted id => exact ⟨rfl, le_max_left _ _, le_rfl⟩
  | alreadyPresent id | merged id => exact ⟨rfl, le_rfl, le_rfl⟩

/-- An offer is held against the depth ceiling when it becomes a concept. -/
theorem place_gated (run : Run) (offer : Offer) :
    Gated other run.stats (run.place settings offer) (run.place other offer) := by
  rw [place_eq, place_eq]
  cases run.store.insert offer.concept offer.origin with
  | error cause => exact .error
  | ok answer =>
      obtain ⟨admission, store⟩ := answer
      dsimp only
      split
      · exact .error
      · have hrises := rises_record run offer store admission
        have hdepth := maxDepthReached_record run offer store admission
        refine .ok hrises fun hwithin => ?_
        split
        · next hdeep =>
            refine .beyond _ (.depth ?_)
            rw [hdepth, if_pos hdeep.1]
            exact hdeep.2.trans_le (le_max_right _ _)
        · next hshallow =>
            refine .within ⟨?_, ?_⟩
            · rw [hdepth]
              split
              · next hnew =>
                  exact max_le hwithin.depth (Nat.not_lt.1 fun hdeep => hshallow ⟨hnew, hdeep⟩)
              · exact hwithin.depth
            · cases admission <;> exact hwithin.invocations

/-- A batch is held against the budget before it is charged. -/
theorem charge_gated (run : Run) (jobs : List Job) :
    Gated other run.stats (run.charge settings jobs) (run.charge other jobs) := by
  unfold charge
  dsimp only
  split
  · exact .error
  · refine .ok ⟨rfl, le_rfl, Nat.le_add_right _ _⟩ fun hwithin => ?_
    have hinvocations := hwithin.invocations
    split
    · next hover =>
        exact .beyond _ (.invocations (by dsimp only; omega))
    · next hcovered =>
        exact .within ⟨hwithin.depth, by dsimp only; omega⟩

/-! ## Taking in offers -/

theorem receive_gated (run : Run) (offer : Offer) :
    Gated other run.stats (run.receive settings offer) (run.receive other offer) := by
  unfold receive
  split
  · exact .error
  · split
    · exact .stay rfl rfl rfl
    · exact place_gated run offer

theorem reconsider_gated (run : Run) (offer : Offer) :
    Gated other run.stats (run.reconsider settings offer) (run.reconsider other offer) := by
  unfold reconsider
  split
  · exact .stay rfl rfl rfl
  · exact place_gated run offer

theorem retryPass_gated (run : Run) :
    Gated other run.stats (run.retryPass settings) (run.retryPass other) :=
  Gated.foldlM reconsider_gated run.deferred { run with deferred := [] }

theorem retry_gated (run : Run) :
    Gated other run.stats (run.retry settings) (run.retry other) := by
  rw [retry_eq, retry_eq]
  apply Gated.bind (retryPass_gated run)
  intro next _
  split
  · next hlt => exact retry_gated next
  · exact .stay rfl rfl rfl
termination_by run.deferred.length

theorem absorb_gated (run : Run) (answered : Job × Except RuleFailure (List Concept)) :
    Gated other run.stats (run.absorb settings answered) (run.absorb other answered) := by
  obtain ⟨job, answer⟩ := answered
  simp only [absorb]
  cases run.store.get? job.source with
  | none => exact .stay rfl rfl rfl
  | some entry =>
      cases answer with
      | error failure => exact .error
      | ok products => exact Gated.foldlM receive_gated _ run

/-! ## Steps -/

theorem runBatch_gated (run : Run) (jobs : List Job) :
    Gated other run.stats (run.runBatch settings jobs) (run.runBatch other jobs) := by
  unfold runBatch
  apply Gated.bind (charge_gated run jobs)
  intro charged _
  apply Gated.bind (Gated.foldlM absorb_gated _ charged.beginBatch)
  intro absorbed _
  exact retry_gated absorbed

theorem step_gated (run : Run) :
    Gated other run.stats (run.step registry settings) (run.step registry other) := by
  cases hphase : run.phase with
  | expanding =>
      by_cases hfresh : run.fresh = #[]
      · rw [step_turn hphase hfresh, step_turn hphase hfresh]
        exact .stay rfl rfl rfl
      · rw [step_wave hphase hfresh, step_wave hphase hfresh]
        have hbatch : Gated other run.stats
            (run.beginWave.runBatch settings (run.beginWave.waveJobs registry run.wave))
            (run.beginWave.runBatch other (run.beginWave.waveJobs registry run.wave)) :=
          (runBatch_gated run.beginWave _).congr rfl rfl rfl
        apply hbatch.bind
        intro batch _
        exact .stay rfl rfl rfl
  | reviewing =>
      by_cases hjobs : run.reviewJobs registry = []
      · rw [step_idle hphase hjobs, step_idle hphase hjobs]
        exact .stay rfl rfl rfl
      · rw [step_round hphase hjobs, step_round hphase hjobs]
        have hbatch : Gated other run.stats
            (run.beginReview.runBatch settings (run.reviewJobs registry))
            (run.beginReview.runBatch other (run.reviewJobs registry)) :=
          (runBatch_gated run.beginReview _).congr rfl rfl rfl
        apply hbatch.bind
        intro batch _
        exact .stay rfl rfl rfl
  | settled =>
      rw [step_of_settled hphase, step_of_settled hphase]
      exact .stay rfl rfl rfl

theorem toFixpoint_gated (run : Run) :
    Gated other run.stats (run.toFixpoint registry settings) (run.toFixpoint registry other) := by
  fun_induction Run.toFixpoint registry settings run with
  | case1 run hphase =>
      rw [toFixpoint_of_settled hphase]
      exact .stay rfl rfl rfl
  | case2 run hphase error hstep => exact .error
  | case3 run hphase next hstep ih =>
      have hsteps : Gated other run.stats
          (run.step registry settings >>= fun next => next.toFixpoint registry settings)
          (run.step registry other >>= fun next => next.toFixpoint registry other) := by
        apply Gated.bind (step_gated run)
        intro middle hmiddle
        obtain rfl : next = middle := Except.ok.inj (hstep.symm.trans hmiddle)
        exact ih
      rwa [bind_of_eq_ok hstep, ← toFixpoint_eq] at hsteps

theorem start_gated (registry : Registry) (settings other : Settings) (seeds : List Concept) :
    Gated other { seeds := seeds.length } (Run.start registry settings seeds)
      (Run.start registry other seeds) := by
  unfold start
  apply Gated.bind (Gated.foldlM receive_gated _ (beforeSeeds registry seeds.length))
  intro offered _
  exact retry_gated offered

/-- A run under other settings settles in the same state, or it is broken off for
want of a ceiling that the counters of that state exceed. -/
theorem guarded_of_settled {started : Run} (other : Settings)
    (hstart : Run.start registry settings seeds = .ok started)
    (hlast : started.toFixpoint registry settings = .ok last) :
    last.stats.seeds = seeds.length ∧
      Guarded other last (Run.start registry other seeds >>= fun started =>
        started.toFixpoint registry other) := by
  have hgated : Gated other { seeds := seeds.length }
      (Run.start registry settings seeds >>= fun started => started.toFixpoint registry settings)
      (Run.start registry other seeds >>= fun started => started.toFixpoint registry other) :=
    (start_gated registry settings other seeds).bind fun started _ => toFixpoint_gated started
  rw [bind_of_eq_ok hstart, hlast] at hgated
  cases hgated with
  | ok hrises hother =>
      exact ⟨hrises.seeds, hother ⟨Nat.zero_le _, Nat.zero_le _⟩⟩

end Run

/-- Of an expansion that succeeds the statistics tell what other settings would have led
to: the very same model if they allow for the longest derivation chain and for all the
rule invocations, and else the error for a ceiling that the statistics exceed. -/
theorem expand_of_other_ceilings {registry : Registry} {settings : Settings}
    {seeds : List Concept} {model : Model} (h : registry.expand settings seeds = .ok model)
    (other : Settings) :
    (registry.expand other seeds = .ok model ↔
      model.stats.maxDepthReached ≤ other.maxDepth ∧
        model.stats.ruleInvocations ≤ other.budget seeds.length) ∧
    (¬ (model.stats.maxDepthReached ≤ other.maxDepth ∧
        model.stats.ruleInvocations ≤ other.budget seeds.length) →
      ∃ ceiling chain, registry.expand other seeds = .error (.nonTerminating ceiling chain) ∧
        model.stats.Exceeds other ceiling) := by
  obtain ⟨started, hstart, h⟩ := exists_of_bind_eq_ok h
  obtain ⟨last, hlast, hfinish⟩ := exists_of_bind_eq_ok h
  obtain ⟨-, -, -, hstats⟩ := Run.finish_ok hfinish
  obtain ⟨hseeds, hguarded⟩ := Run.guarded_of_settled other hstart hlast
  have hwithin : last.stats.Within other ↔ model.stats.maxDepthReached ≤ other.maxDepth ∧
      model.stats.ruleInvocations ≤ other.budget seeds.length := by
    rw [hstats, ← hseeds]
    exact ⟨fun h => ⟨h.depth, h.invocations⟩, fun h => ⟨h.1, h.2⟩⟩
  have hexpand : registry.expand other seeds =
      (Run.start registry other seeds >>= fun started => started.toFixpoint registry other) >>=
        Run.finish := by
    rw [bind_assoc]
    rfl
  rw [hexpand, ← hwithin]
  generalize (Run.start registry other seeds >>= fun started =>
    started.toFixpoint registry other) = attempt at hguarded ⊢
  cases hguarded with
  | within hlastWithin =>
      exact ⟨⟨fun _ => hlastWithin, fun _ => hfinish⟩, fun hnot => absurd hlastWithin hnot⟩
  | beyond chain hexceeds =>
      have hnot : ¬ last.stats.Within other := fun hlastWithin =>
        hlastWithin.not_exceeds hexceeds
      have hrises : last.stats.Rises model.stats := by
        rw [hstats]
        exact ⟨rfl, le_rfl, le_rfl⟩
      refine ⟨⟨fun hok => ?_, fun hlastWithin => absurd hlastWithin hnot⟩, fun _ => ?_⟩
      · cases hok
      · exact ⟨_, chain, rfl, hexceeds.rises hrises⟩

/-! ## A dynasty under other ceilings -/

namespace Dynasty

/-- The third ruler is two steps from the first, and three rules are invoked: just as
many steps and invocations have to be allowed, and no fewer will do. -/
theorem expand_shorter_reign : ∃ model, registry.expand {} [ruler 1] = .ok model ∧
    registry.expand { maxDepth := 2, maxExpansions := 3 } [ruler 1] = .ok model ∧
    (∃ chain, registry.expand { maxDepth := 1, maxExpansions := 3 } [ruler 1] =
      .error (.nonTerminating (.depth 1) chain)) ∧
    ∃ chain, registry.expand { maxDepth := 2, maxExpansions := 2 } [ruler 1] =
      .error (.nonTerminating (.expansions 2) chain) := by
  obtain ⟨model, hmodel, hcheck⟩ := Run.exists_finish_of_after registry {} [ruler 1] 5
    (fun model => model.stats.maxDepthReached = 2 ∧ model.stats.ruleInvocations = 3 ∧
      model.stats.seeds = 1) (by cbv)
  obtain ⟨hdepth, hinvocations, hseeds⟩ := of_decide_eq_true hcheck
  obtain ⟨hexact, -⟩ := expand_of_other_ceilings hmodel { maxDepth := 2, maxExpansions := 3 }
  obtain ⟨-, hlower⟩ := expand_of_other_ceilings hmodel { maxDepth := 1, maxExpansions := 3 }
  obtain ⟨-, hfewer⟩ := expand_of_other_ceilings hmodel { maxDepth := 2, maxExpansions := 2 }
  rw [hdepth, hinvocations] at hexact hlower hfewer
  refine ⟨model, hmodel, hexact.2 (by decide), ?_, ?_⟩
  · obtain ⟨ceiling, chain, hchain, hexceeds⟩ := hlower (by decide)
    cases hexceeds with
    | depth => exact ⟨chain, hchain⟩
    | invocations h =>
        rw [hinvocations, hseeds] at h
        exact absurd h (by decide)
  · obtain ⟨ceiling, chain, hchain, hexceeds⟩ := hfewer (by decide)
    cases hexceeds with
    | depth h =>
        rw [hdepth] at h
        exact absurd h (by decide)
    | invocations =>
        rw [hseeds] at hchain
        exact ⟨chain, hchain⟩

end Dynasty

end ConceptExpansion
