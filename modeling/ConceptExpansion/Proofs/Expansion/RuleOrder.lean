/-
# The order of the rules does not matter

Two registries may list the rules of a kind in different orders, and the rules of
one may return their concepts in another order than those of the other. If the
rules look at no more of the store than its contents, runs under both registries
over the same seeds stay akin: batch by batch they offer the same concepts, so
they have the same contents and do the same number of things, although they give
out other identifiers, defer other offers and record other parents and depths.

Only the depths can tell them apart. An order in which a concept is first
produced by a longer chain may exceed the depth limit where another order does
not.
-/

import ConceptExpansion.Proofs.Run.Confluence
import ConceptExpansion.Proofs.Run.Jobs

namespace ConceptExpansion

/-! ## Rules that differ in order -/

/-- The answer of the rule depends on the concept and on the contents of the store
only. -/
def Rule.ReadsContents (rule : Rule) : Prop :=
  ∀ concept {store store' : Store}, store.WellFormed → store'.WellFormed →
    store.SameContents store' → rule.expand concept store = rule.expand concept store'

/-- The rule answers as the other one does where that succeeds, but for the order of
the concepts. -/
structure Rule.Reorders (rule' rule : Rule) : Prop where
  readsModel : rule'.readsModel = rule.readsModel
  expand : ∀ {concept : Concept} {store : Store} {products : List Concept},
    rule.expand concept store = .ok products →
      ∃ products', rule'.expand concept store = .ok products' ∧ products.Perm products'

namespace Registry

/-- The answers of all rules depend on contents only. -/
def ReadsContents (registry : Registry) : Prop :=
  ∀ kind, ∀ rule ∈ registry.rulesFor kind, rule.ReadsContents

/-- The registry has the same kinds as the other one and for each kind the same
rules, but for the order of the rules and of the concepts that they return. -/
structure Reorders (registry' registry : Registry) : Prop where
  schema : registry'.schema = registry.schema
  rules : ∀ kind, Matches (fun rule rule' => rule'.Reorders rule)
    (registry.rulesFor kind) (registry'.rulesFor kind)

end Registry

/-- Wherever the contents are the same, the rule `rule'` answers as `rule` does where
that succeeds, but for the order of the concepts. -/
structure Rule.Akin (rule rule' : Rule) : Prop where
  readsModel : rule.readsModel = rule'.readsModel
  expand : ∀ {concept : Concept} {store store' : Store} {products : List Concept},
    store.WellFormed → store'.WellFormed → store.SameContents store' →
      rule.expand concept store = .ok products →
        ∃ products', rule'.expand concept store' = .ok products' ∧ products.Perm products'

theorem Rule.Reorders.akin {rule rule' : Rule} (h : rule'.Reorders rule)
    (hcontents : rule.ReadsContents) : rule.Akin rule' := by
  refine ⟨h.readsModel.symm, fun hstore hstore' hsame hproducts => ?_⟩
  rw [hcontents _ hstore hstore' hsame] at hproducts
  exact h.expand hproducts

/-- Rules of the two registries are akin, kind by kind. -/
def Registry.Akin (registry registry' : Registry) : Prop :=
  ∀ kind, Matches Rule.Akin (registry.rulesFor kind) (registry'.rulesFor kind)

namespace Registry

variable {registry registry' : Registry}

theorem Reorders.akin (h : registry'.Reorders registry) (hcontents : registry.ReadsContents) :
    registry.Akin registry' := by
  intro kind
  exact (h.rules kind).imp fun rule hrule _ hreorders =>
    hreorders.akin (hcontents kind rule hrule)

theorem Akin.readingRules (h : registry.Akin registry') (kind : String) :
    Matches Rule.Akin (registry.readingRulesFor kind) (registry'.readingRulesFor kind) :=
  (h kind).filter fun hrule => hrule.readsModel

end Registry

/-! ## The jobs of akin runs -/

/-- In stores with the same contents, what there is to ask about concepts with the
same keys is answered alike. -/
theorem Store.SameContents.jobs_match {a b : Store} {rulesOf rulesOf' : String → List Rule}
    (h : a.SameContents b) (ha : a.WellFormed) (hb : b.WellFormed)
    (hrules : ∀ kind, Matches Rule.Akin (rulesOf kind) (rulesOf' kind))
    {ids ids' : List ConceptId} (hids : (ids.map a.keyOf?).Perm (ids'.map b.keyOf?)) :
    Matches (Job.Akin a b) (ids.flatMap (a.jobsOf rulesOf)) (ids'.flatMap (b.jobsOf rulesOf')) := by
  apply (Matches.of_map_perm hids).flatMap
  intro id id' hkey
  cases hentry : a.get? id with
  | none =>
      have hother : b.get? id' = none := by
        rw [Store.keyOf?, hentry, Option.map_none, eq_comm, Store.keyOf?] at hkey
        exact Option.map_eq_none_iff.1 hkey
      rw [Store.jobsOf_of_none hentry, Store.jobsOf_of_none hother]
      exact .nil
  | some entry =>
      obtain ⟨other, hother, hsame⟩ := h.exists_get? ha hb hkey hentry
      rw [Store.jobsOf_of_get? hentry, Store.jobsOf_of_get? hother, hsame]
      apply (hrules entry.concept.kind).map
      intro rule rule' hrule products hproducts
      have hanswer : Job.answer a ⟨id, rule⟩ = rule.expand entry.concept a :=
        Job.answer_of_get? hentry
      have hanswer' : Job.answer b ⟨id', rule'⟩ = rule'.expand other.concept b :=
        Job.answer_of_get? hother
      rw [hanswer] at hproducts
      rw [hanswer', hsame]
      exact hrule.expand ha hb h hproducts

namespace Run

variable {registry registry' : Registry} {settings : Settings} {seeds : List Concept}
  {passed passed' : List Run} {run run' next last batch : Run}

namespace Akin

theorem waveJobs (h : Akin run run') (hrun : run.store.WellFormed)
    (hrun' : run'.store.WellFormed) (hrules : registry.Akin registry')
    (hfresh : run.fresh.toList.Nodup) (hfresh' : run'.fresh.toList.Nodup) :
    Matches (Job.Akin run.store run'.store) (run.beginWave.waveJobs registry run.wave)
      (run'.beginWave.waveJobs registry' run'.wave) := by
  -- The waves list the same keys: they leave out none of the fresh concepts.
  have hids : (run.wave.map run.store.keyOf?).Perm (run'.wave.map run'.store.keyOf?) :=
    (((wave_perm hfresh).map _).trans h.fresh).trans ((wave_perm hfresh').map _).symm
  exact h.contents.jobs_match hrun hrun' hrules hids

theorem reviewJobs (h : Akin run run') (hrun : run.store.WellFormed)
    (hrun' : run'.store.WellFormed) (hrules : registry.Akin registry') :
    Matches (Job.Akin run.store run'.store) (run.reviewJobs registry)
      (run'.reviewJobs registry') := by
  have hids := h.contents.keyOf?_perm hrun hrun'
  have hjobs := h.contents.jobs_match hrun hrun' hrules.readingRules hids
  rw [hrun.flatMap_jobsOf, hrun'.flatMap_jobsOf] at hjobs
  exact (hjobs.perm_left (reviewJobs_perm registry hrun)).perm_right
    (reviewJobs_perm registry' hrun').symm

theorem beginWave (h : Akin run run') : Akin run.beginWave run'.beginWave := by
  have hwaves : run.stats.waves + 1 = run'.stats.waves + 1 := by rw [h.waves]
  exact { h with waves := hwaves }

theorem beginReview (h : Akin run run') : Akin run.beginReview run'.beginReview := by
  have hrounds : run.stats.reviewRounds + 1 = run'.stats.reviewRounds + 1 := by
    rw [h.reviewRounds]
  exact { h with reviewRounds := hrounds }

theorem fresh_eq_empty_iff (h : Akin run run') : run.fresh = #[] ↔ run'.fresh = #[] := by
  have hlength := h.fresh.length_eq
  rw [List.length_map, List.length_map, Array.length_toList, Array.length_toList] at hlength
  rw [← Array.size_eq_zero_iff, hlength, Array.size_eq_zero_iff]

theorem deferred_eq_nil_iff (h : Akin run run') : run.deferred = [] ↔ run'.deferred = [] := by
  have hlength := h.deferred.length_eq
  rw [Offer.concepts, Offer.concepts, List.length_map, List.length_map] at hlength
  rw [← List.length_eq_zero_iff, hlength, List.length_eq_zero_iff]

/-! ## Steps of akin runs -/

/-- Waves of akin runs end in akin states. -/
theorem wave (h : Akin run run') (hrules : registry.Akin registry')
    (hcourse : Course registry settings seeds passed run)
    (hcourse' : Course registry' settings seeds passed' run')
    (hbatch : run.beginWave.runBatch settings (run.beginWave.waveJobs registry run.wave) =
      .ok batch) :
    Ends (TooDeep settings) (Akin batch)
      (run'.beginWave.runBatch settings (run'.beginWave.waveJobs registry' run'.wave)) := by
  have hreach := hcourse.reachable
  have hreach' := hcourse'.reachable
  have hrun := hreach.accounts.wellFormed
  have hrun' := hreach'.accounts.wellFormed
  have hjobs := h.waveJobs hrun hrun' hrules (hcourse.tally.nodup_fresh hrun)
    (hcourse'.tally.nodup_fresh hrun')
  exact h.beginWave.runBatch hrun hrun' (aligned_mark hreach.aligned)
    (aligned_mark hreach'.aligned) hreach.deferredValid (sourced_waveJobs _ _ _)
    (sourced_waveJobs _ _ _) hjobs hbatch

/-- Rounds of akin runs end in akin states. -/
theorem round (h : Akin run run') (hrules : registry.Akin registry')
    (hcourse : Course registry settings seeds passed run)
    (hcourse' : Course registry' settings seeds passed' run')
    (hbatch : run.beginReview.runBatch settings (run.reviewJobs registry) = .ok batch) :
    Ends (TooDeep settings) (Akin batch)
      (run'.beginReview.runBatch settings (run'.reviewJobs registry')) := by
  have hreach := hcourse.reachable
  have hreach' := hcourse'.reachable
  have hrun := hreach.accounts.wellFormed
  have hrun' := hreach'.accounts.wellFormed
  exact h.beginReview.runBatch hrun hrun' hreach.aligned hreach'.aligned hreach.deferredValid
    (sourced_reviewJobs registry hrun) (sourced_reviewJobs registry' hrun')
    (h.reviewJobs hrun hrun' hrules) hbatch

/-- Akin runs stay akin by every step, unless one of them has a derivation chain that
is too long. -/
theorem step (h : Akin run run') (hrules : registry.Akin registry')
    (hcourse : Course registry settings seeds passed run)
    (hcourse' : Course registry' settings seeds passed' run')
    (hstep : run.step registry settings = .ok next) :
    Ends (TooDeep settings) (Akin next) (run'.step registry' settings) := by
  cases hphase : run.phase with
  | expanding =>
      have hphase' : run'.phase = .expanding := h.phase ▸ hphase
      by_cases hfresh : run.fresh = #[]
      · rw [step_turn hphase hfresh] at hstep
        rw [step_turn hphase' (h.fresh_eq_empty_iff.1 hfresh)]
        cases hstep
        exact { h with phase := rfl }
      · rw [step_wave hphase hfresh] at hstep
        rw [step_wave hphase' (mt h.fresh_eq_empty_iff.2 hfresh)]
        obtain ⟨batch, hbatch, hnext⟩ := exists_of_bind_eq_ok hstep
        cases hnext
        apply (h.wave hrules hcourse hcourse' hbatch).bind
        exact fun batch' _ hakin => hakin.mark _ _ _
  | reviewing =>
      have hphase' : run'.phase = .reviewing := h.phase ▸ hphase
      have hreach := hcourse.reachable
      have hreach' := hcourse'.reachable
      have hjobs := h.reviewJobs hreach.accounts.wellFormed hreach'.accounts.wellFormed hrules
      by_cases hnil : run.reviewJobs registry = []
      · rw [step_idle hphase hnil] at hstep
        rw [step_idle hphase' (hjobs.eq_nil_iff.1 hnil)]
        cases hstep
        exact { h with fresh := .nil, changed := rfl, phase := rfl }
      · rw [step_round hphase hnil] at hstep
        rw [step_round hphase' (mt hjobs.eq_nil_iff.2 hnil)]
        obtain ⟨batch, hbatch, hnext⟩ := exists_of_bind_eq_ok hstep
        cases hnext
        apply (h.round hrules hcourse hcourse' hbatch).bind
        intro batch' _ hakin
        have hphase : (if batch.changed then Phase.expanding else .settled) =
            if batch'.changed then .expanding else .settled := by
          rw [hakin.changed]
        exact { hakin with phase := hphase }
  | settled =>
      rw [step_of_settled hphase] at hstep
      rw [step_of_settled (h.phase ▸ hphase)]
      cases hstep
      exact h

/-- Akin runs settle in akin states, unless one of them has a derivation chain that is
too long. -/
theorem toFixpoint (h : Akin run run') (hrules : registry.Akin registry')
    (hcourse : Course registry settings seeds passed run)
    (hcourse' : Course registry' settings seeds passed' run')
    (hlast : run.toFixpoint registry settings = .ok last) :
    Ends (TooDeep settings) (Akin last) (run'.toFixpoint registry' settings) := by
  fun_induction Run.toFixpoint registry settings run generalizing run' passed passed' with
  | case1 run hphase =>
      cases hlast
      rw [toFixpoint_of_settled (h.phase ▸ hphase)]
      exact h
  | case2 run hphase error hstep => cases hlast
  | case3 run hphase next hstep ih =>
      have hends := h.step hrules hcourse hcourse' hstep
      cases hstep' : run'.step registry' settings with
      | error error =>
          rw [toFixpoint_of_step_error hstep']
          exact hends.of_error hstep'
      | ok next' =>
          rw [toFixpoint_of_step hstep']
          exact ih (hends.of_ok hstep') (.step hcourse hphase hstep)
            (.step hcourse' (h.phase ▸ hphase) hstep') hlast

end Akin

/-! ## Where akin runs begin and end -/

/-- Over the same kinds runs begin alike. -/
theorem start_eq (hschema : registry'.schema = registry.schema) (seeds : List Concept) :
    Run.start registry' settings seeds = Run.start registry settings seeds := by
  rw [Run.start, Run.start, beforeSeeds, beforeSeeds, hschema]

theorem Akin.loose? (h : Akin run run') (hrun : run.store.WellFormed)
    (hrun' : run'.store.WellFormed) (hloose : run.loose? = none) : run'.loose? = none := by
  obtain ⟨hdeferred, hdangling⟩ := loose?_eq_none_iff.1 hloose
  exact loose?_eq_none_iff.2 ⟨h.deferred_eq_nil_iff.1 hdeferred,
    h.contents.dangling_eq_nil hrun hrun' hdangling⟩

end Run

/-- The models hold the same concepts, list their keys in the same order, and were
expanded in the same number of waves, rule invocations and rounds of review. -/
structure Model.Akin (model model' : Model) : Prop where
  contents : model.store.SameContents model'.store
  order : model.order.map model.store.keyOf? = model'.order.map model'.store.keyOf?
  waves : model.stats.waves = model'.stats.waves
  ruleInvocations : model.stats.ruleInvocations = model'.stats.ruleInvocations
  reviewRounds : model.stats.reviewRounds = model'.stats.reviewRounds

theorem Run.Akin.finish {run run' : Run} {model : Model} (h : Run.Akin run run')
    (hrun : run.store.WellFormed) (hrun' : run'.store.WellFormed)
    (hmodel : run.finish = .ok model) :
    ∃ model', run'.finish = .ok model' ∧ model.Akin model' := by
  obtain ⟨hloose, rfl⟩ := Run.finish_eq_ok_iff.1 hmodel
  refine ⟨_, Run.finish_eq_ok_iff.2 ⟨h.loose? hrun hrun' hloose, rfl⟩, ?_⟩
  exact
    { contents := h.contents
      order := h.contents.keyOf?_precedence hrun hrun'
      waves := h.waves
      ruleInvocations := h.ruleInvocations
      reviewRounds := h.reviewRounds }

/-- If an expansion succeeds, then with the rules and what they return in another
order it leads to the same concepts in the same order of precedence, by the same
number of waves, rule invocations and rounds, unless a derivation chain becomes too
long. -/
theorem expand_reordered {registry registry' : Registry} {settings : Settings}
    {seeds : List Concept} {model : Model} (hreorders : registry'.Reorders registry)
    (hcontents : registry.ReadsContents) (h : registry.expand settings seeds = .ok model) :
    (∃ model', registry'.expand settings seeds = .ok model' ∧ model.Akin model') ∨
      ∃ chain, registry'.expand settings seeds =
        .error (.nonTerminating (.depth settings.maxDepth) chain) := by
  obtain ⟨started, hstart, h⟩ := exists_of_bind_eq_ok h
  obtain ⟨last, hlast, hfinish⟩ := exists_of_bind_eq_ok h
  -- No rule is asked before the seeds have been taken in.
  have hstart' : Run.start registry' settings seeds = .ok started := by
    rw [Run.start_eq hreorders.schema, hstart]
  have hends := (Run.Akin.refl started).toFixpoint (hreorders.akin hcontents) (.start hstart)
    (.start hstart') hlast
  rw [(Run.Reachable.start hstart').expand_eq]
  cases hlast' : started.toFixpoint registry' settings with
  | error error =>
      obtain ⟨chain, rfl⟩ := hends.of_error hlast'
      exact .inr ⟨chain, rfl⟩
  | ok last' =>
      have hrun := (Run.Reachable.toFixpoint (.start hstart) hlast).1.accounts.wellFormed
      have hrun' := (Run.Reachable.toFixpoint (.start hstart') hlast').1.accounts.wellFormed
      exact .inl ((hends.of_ok hlast').finish hrun hrun' hfinish)

/-! ## A reception -/

namespace Reception

/-- A guest, by number. -/
def guest (n : Int64) : Concept :=
  { kind := "G", fields := [.int n] }

/-- A card for a guest. -/
def card (n : Int64) : Concept :=
  { kind := "C", fields := [(guest n).reference] }

/-- The hall. -/
def hall : Concept :=
  { kind := "H" }

/-- The toast that is given in the hall. -/
def toast : Concept :=
  { kind := "T", fields := [hall.reference] }

/-- Whoever has a card needs a hall. -/
def book : Rule where
  name := "book"
  expand _ _ := .ok [hall]

/-- A toast is planned for cards once the third guest is known. -/
def plan : Rule where
  name := "plan"
  readsModel := true
  expand _ store := .ok (if store.contains (guest 3).key then [toast] else [])

/-- The first guest brings two others, who give the toast. -/
def bring (arrange : List Concept → List Concept) : Rule where
  name := "bring"
  expand concept _ :=
    .ok (arrange (if concept = guest 1 then [guest 2, guest 3] else [toast]))

/-- Cards, guests, the hall and the toast under these rules for cards and guests. -/
def registry (forCards forGuests : List Rule) : Registry where
  schema := .ofKinds
    [{ name := "C", keyFields := ["for"] }, { name := "G", keyFields := ["n"] },
      { name := "H" }, { name := "T", keyFields := ["in"] }]
  rules := .ofList [("C", forCards), ("G", forGuests)]

/-- A card that waits for its guest, and the guest who brings that one. -/
def seeds : List Concept :=
  [card 2, guest 1]

theorem rulesFor_registry (forCards forGuests : List Rule) (kind : String) :
    (registry forCards forGuests).rulesFor kind =
      if kind = "G" then forGuests else if kind = "C" then forCards else [] := by
  unfold Registry.rulesFor registry NameMap.ofList
  dsimp only [List.foldl]
  rw [NameMap.get?_insert, NameMap.get?_insert, NameMap.get?_empty]
  split_ifs <;> rfl

theorem reorders : (registry [plan, book] [bring List.reverse]).Reorders
    (registry [book, plan] [bring id]) where
  schema := rfl
  rules kind := by
    have hsame : ∀ rule : Rule, rule.Reorders rule := fun _ => ⟨rfl, fun h => ⟨_, h, .refl _⟩⟩
    have hbring : (bring List.reverse).Reorders (bring id) := by
      refine ⟨rfl, fun h => ?_⟩
      cases h
      exact ⟨_, rfl, (List.reverse_perm _).symm⟩
    rw [rulesFor_registry, rulesFor_registry]
    split_ifs
    · exact .of_forall₂ (.cons hbring .nil)
    · exact .perm_left (.swap plan book []) (.of_forall₂ (.cons (hsame plan) (.cons (hsame book) .nil)))
    · exact .nil

theorem readsContents : (registry [book, plan] [bring id]).ReadsContents := by
  intro kind rule hrule concept store store' hstore hstore' hsame
  rw [rulesFor_registry] at hrule
  split_ifs at hrule
  · obtain rfl := List.mem_singleton.1 hrule
    rfl
  · rcases List.mem_pair.1 hrule with rfl | rfl
    · rfl
    · show Except.ok _ = Except.ok _
      rw [hsame.contains hstore hstore']
  · cases hrule

/-- With the rules for cards exchanged the toast has to wait for the hall and is first
given by a guest who was brought, so that the longest chain becomes longer, but the
models are akin. -/
theorem expand_reception : ∃ model model',
    (registry [book, plan] [bring id]).expand {} seeds = .ok model ∧
      (registry [plan, book] [bring List.reverse]).expand {} seeds = .ok model' ∧
      model.stats.maxDepthReached = 1 ∧ model'.stats.maxDepthReached = 2 ∧
      model.Akin model' := by
  obtain ⟨model, hmodel, hdepth⟩ := Run.exists_finish_of_after
    (registry [book, plan] [bring id]) {} seeds 5
    (fun model => model.stats.maxDepthReached = 1) (by cbv)
  obtain ⟨model', hmodel', hdepth'⟩ := Run.exists_finish_of_after
    (registry [plan, book] [bring List.reverse]) {} seeds 5
    (fun model => model.stats.maxDepthReached = 2) (by cbv)
  refine ⟨model, model', hmodel, hmodel', of_decide_eq_true hdepth, of_decide_eq_true hdepth', ?_⟩
  rcases expand_reordered reorders readsContents hmodel with ⟨other, hother, hakin⟩ | ⟨chain, herror⟩
  · rw [hmodel'] at hother
    cases hother
    exact hakin
  · rw [hmodel'] at herror
    cases herror

end Reception

end ConceptExpansion
