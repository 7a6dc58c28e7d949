/-
# To expand a model again changes nothing

Suppose that ordinary rules look at no attribute that grows, and model-reading rules at
no more of the store than its contents. Then whatever a rule was told about a concept
when it was asked is what it would be told about the concept in the model, so the store
of a model is saturated. Offered as seeds, the concepts of the model bring back its
contents, and a run over a saturated store settles without a change.

The budget suffices for the second run. The first one has asked every rule about every
concept in some wave, and every model-reading rule once more in the round with which it
has settled, and it had no larger budget, since it had no more seeds.
-/

import ConceptExpansion.Proofs.Expansion.ReadingRules
import ConceptExpansion.Proofs.Expansion.Reseeding
import ConceptExpansion.Proofs.Expansion.RuleOrder
import ConceptExpansion.Proofs.Expansion.SingleExpansion
import ConceptExpansion.Proofs.Expansion.Termination
import ConceptExpansion.Proofs.Run.Provenance
import ConceptExpansion.Proofs.Store.Completeness

namespace ConceptExpansion

/-- The answers of ordinary rules depend only on the key and on attributes that do not
grow, those of model-reading rules only on the concept and on the contents of the
store. -/
structure Registry.IsFunctional (registry : Registry) : Prop where
  ordinary : ∀ kind, ∀ rule ∈ registry.rulesFor kind, rule.readsModel = false →
    rule.IsDetermined registry.schema kind
  reading : ∀ kind, ∀ rule ∈ registry.rulesFor kind, rule.readsModel = true →
    rule.ReadsContents

namespace Store

variable {registry : Registry} {a b store : Store}

/-- Concepts that the store represents under different keys are no more than it has. -/
theorem WellFormed.length_le_size (hstore : store.WellFormed) {concepts : List Concept}
    (hkeys : (concepts.map (·.key)).Nodup)
    (h : ∀ concept ∈ concepts, store.Represents concept) : concepts.length ≤ store.size := by
  have hsubset : concepts.map (·.key) ⊆ store.keys := by
    intro key hkey
    obtain ⟨concept, hconcept, rfl⟩ := List.mem_map.1 hkey
    obtain ⟨entry, hfind, -⟩ := h concept hconcept
    exact hstore.mem_keys.2 ⟨entry, hfind⟩
  have hle := (List.subperm_of_subset hkeys hsubset).length_le
  rwa [List.length_map, hstore.length_keys] at hle

namespace SameContents

/-- There is as much to ask about the one store as about the other. -/
theorem length_jobs (h : a.SameContents b) (ha : a.WellFormed) (hb : b.WellFormed)
    (rulesOf : String → List Rule) : (a.jobs rulesOf).length = (b.jobs rulesOf).length := by
  rw [ha.length_jobs, hb.length_jobs, h.keys ha hb]

/-- Whether a store is saturated depends on its contents. -/
theorem saturated (h : a.SameContents b) (ha : a.WellFormed) (hb : b.WellFormed)
    (hrules : registry.IsFunctional) (hsaturated : a.Saturated registry) :
    b.Saturated registry := by
  intro entry hentry rule hrule
  obtain ⟨other, hfind, hsame⟩ := h.symm.find? (hb.find?_of_get? (hb.get?_of_mem hentry))
  have hother := Array.mem_of_getElem? (ha.find?_eq_some_iff.1 hfind).1
  rw [← hsame] at hrule ⊢
  obtain ⟨products, hproducts, hrepresented⟩ := hsaturated other hother rule hrule
  refine ⟨products, ?_, fun product hproduct =>
    (h.below ha).represents_of ha (hrepresented product hproduct)⟩
  rw [← hproducts]
  cases hreads : rule.readsModel with
  | true => exact hrules.reading _ rule hrule hreads _ hb ha h.symm
  | false => exact hrules.ordinary _ rule hrule hreads _ _ b a rfl rfl fun _ _ => rfl

end SameContents

end Store

namespace Run

variable {registry : Registry} {settings : Settings} {seeds : List Concept}
  {passed : List Run} {run started last : Run} {model : Model}

/-! ## Where the first run has ended -/

/-- A settled run in which nothing waits has a saturated store. -/
theorem Reachable.saturated (h : Reachable registry settings seeds last)
    (hphase : last.phase = .settled) (hdeferred : last.deferred = [])
    (hrules : registry.IsFunctional) : last.store.Saturated registry := by
  intro entry hentry rule hrule
  have haccounts := h.accounts
  cases hreads : rule.readsModel with
  | true =>
      obtain ⟨products, hproducts, hheld⟩ := h.reviewed hphase entry hentry rule hrule hreads
      exact ⟨products, hproducts, fun product hproduct =>
        (hheld product hproduct).represents hdeferred⟩
  | false =>
      -- The rule was asked in the wave of the concept, which differed in what grows only.
      have hget := haccounts.wellFormed.get?_of_mem hentry
      obtain ⟨before, earlier, -, -, -, -, -, -, hwithin, hasked⟩ :=
        (haccounts.expanded_of_settled hphase hget).exists_earlier hget
      obtain ⟨products, hproducts, hheld⟩ := hasked rule hrule
      refine ⟨products, ?_, fun product hproduct => (hheld product hproduct).represents hdeferred⟩
      rw [← hproducts]
      exact hrules.ordinary _ rule hrule hreads _ _ last.store before.store rfl hwithin.key.symm
        fun name hname => (hwithin.plain name (hwithin.kind ▸ hname)).symm

/-- A settled run has gone on from review without a change. -/
theorem Course.exists_last_round (h : Course registry settings seeds passed last)
    (hphase : last.phase = .settled) :
    ∃ round ∈ passed, round.phase = .reviewing ∧ round.store = last.store := by
  cases h with
  | start h => cases (phase_of_start h).symm.trans hphase
  | @step passed run next hrun hunsettled h =>
      refine ⟨run, List.mem_append_right _ List.mem_cons_self, ?_⟩
      cases move_of_step h with
      | turn => cases hphase
      | wave hexpanding hbatch => cases (phase_of_wave hexpanding hbatch).symm.trans hphase
      | idle hreviewing => exact ⟨hreviewing, rfl⟩
      | round hreviewing hbatch =>
          have hunchanged := unchanged_of_round fun hexpanding => by
            cases hexpanding.symm.trans hphase
          have hcarries := carries_of_round hrun.reachable.accounts.wellFormed hbatch
          exact ⟨hreviewing, (hcarries.unchanged hunchanged).2.1.symm⟩
      | rest hsettled => exact absurd hsettled hunsettled

/-- A run that succeeds has asked every rule about every stored concept, and every
model-reading rule once more. -/
theorem Course.length_jobs_le (h : Course registry settings seeds passed last)
    (hphase : last.phase = .settled) (hfinish : last.finish = .ok model) :
    (model.store.jobs registry.rulesFor).length +
      (model.store.jobs registry.readingRulesFor).length ≤ settings.budget seeds.length := by
  obtain ⟨-, hstore, -, hstats⟩ := finish_ok hfinish
  have hcharged := h.reachable.visits.ruleInvocations_le.2
  have hinvocations := (h.expandsOnce hphase hfinish).ruleInvocations
  rw [hstats] at hinvocations
  obtain ⟨round, hround, hreviewing, hsame⟩ := h.exists_last_round hphase
  rw [Store.length_jobs, Store.length_jobs]
  refine le_trans (le_of_le_of_eq (Nat.add_le_add_left ?_ _) hinvocations.symm) hcharged
  apply List.le_sum_of_mem
  refine List.mem_map.2 ⟨round, List.mem_filter.2 ⟨hround, decide_eq_true hreviewing⟩, ?_⟩
  rw [hsame, hstore]

/-! ## How the second run begins -/

theorem reviewRounds_of_start (h : Run.start registry settings seeds = .ok started) :
    started.stats.reviewRounds = 0 := by
  have hcounts : SameCounts (beforeSeeds registry seeds.length) started := sameCounts_of_intake h
  exact hcounts.reviewRounds

/-- The first wave asks all there is to ask about the stored concepts. -/
theorem length_waveJobs_of_start (h : Run.start registry settings seeds = .ok started) :
    (started.waveJobs registry started.wave).length =
      (started.store.jobs registry.rulesFor).length := by
  have hwellFormed := (accounts_of_start h).wellFormed
  have htally := tally_of_start h
  have hwave : started.wave.Perm started.store.ids :=
    (wave_perm (htally.nodup_fresh hwellFormed)).trans htally.stored
  rw [waveJobs_eq_flatMap, ← hwellFormed.flatMap_jobsOf]
  exact (hwave.flatMap_right _).length_eq

/-- Before any rule has been asked only seeds are stored. -/
theorem isSeed_of_start (h : Run.start registry settings seeds = .ok started) :
    ∀ entry ∈ started.store.entries, entry.origin.isSeed = true := by
  intro entry hentry
  have hget := (accounts_of_start h).wellFormed.get?_of_mem hentry
  obtain ⟨offer, hissued, hbecame⟩ := (Course.start h).attributed.stored hget
  rw [← hbecame.origin]
  cases hissued with
  | seed => rfl
  | product hearlier => cases hearlier

end Run

/-! ## The second run -/

/-- What a model over these seeds has that lets its concepts be expanded again. -/
structure Model.Complete (registry : Registry) (settings : Settings) (seeds : List Concept)
    (model : Model) : Prop where
  wellFormed : model.store.WellFormed
  schema : model.store.schema = registry.schema
  saturated : model.store.Saturated registry
  closed : model.store.dangling = []
  order : model.order = model.store.precedence
  represents : ∀ seed ∈ seeds, model.store.Represents seed
  cost : (model.store.jobs registry.rulesFor).length +
    (model.store.jobs registry.readingRulesFor).length ≤ settings.budget seeds.length

theorem Model.complete_of_expand {registry : Registry} {settings : Settings}
    {seeds : List Concept} {model : Model} (hrules : registry.IsFunctional)
    (h : registry.expand settings seeds = .ok model) :
    model.Complete registry settings seeds := by
  obtain ⟨passed, last, hcourse, hphase, hfinish⟩ := Run.course_of_expand h
  have hcost := hcourse.length_jobs_le hphase hfinish
  have haccounts := hcourse.reachable.accounts
  obtain ⟨hloose, rfl⟩ := Run.finish_eq_ok_iff.1 hfinish
  obtain ⟨hdeferred, hclosed⟩ := Run.loose?_eq_none_iff.1 hloose
  exact
    { wellFormed := haccounts.wellFormed
      schema := haccounts.schema
      saturated := hcourse.reachable.saturated hphase hdeferred hrules
      closed := hclosed
      order := rfl
      represents := fun seed hseed => (haccounts.offered seed hseed).represents hdeferred
      cost := hcost }

namespace Model.Complete

variable {registry : Registry} {settings : Settings} {seeds seeds' : List Concept}
  {model : Model} {started last : Run}

/-- The concepts of the model are those of its store. -/
theorem reseeds (h : model.Complete registry settings seeds) (hseeds : seeds'.Perm model.concepts) :
    Run.Reseeds model.store seeds' := by
  unfold Model.concepts Model.entries at hseeds
  rw [h.order] at hseeds
  exact hseeds.trans (h.wellFormed.filterMap_precedence_perm.map _)

/-- The second run has at least as many seeds and no more to ask. -/
theorem cost_le (h : model.Complete registry settings seeds)
    (hkeys : (seeds.map (·.key)).Nodup) (hseeds : seeds'.Perm model.concepts) :
    (model.store.jobs registry.rulesFor).length +
      (model.store.jobs registry.readingRulesFor).length ≤ settings.budget seeds'.length := by
  refine h.cost.trans (settings.budget_mono ?_)
  rw [(h.reseeds hseeds).length_eq]
  exact h.wellFormed.length_le_size hkeys h.represents

/-- The second run settles with what the seeds have led to. -/
theorem exists_last (h : model.Complete registry settings seeds) (hrules : registry.IsFunctional)
    (hkeys : (seeds.map (·.key)).Nodup) (hseeds : seeds'.Perm model.concepts)
    (hstart : Run.start registry settings seeds' = .ok started)
    (hrebuilt : Run.Rebuilt model.store started) :
    ∃ last, started.toFixpoint registry settings = .ok last ∧ Run.Rests started last ∧
      last.stats.reviewRounds ≤ 1 := by
  have hcontents := hrebuilt.contents
  have hstarted := (Run.accounts_of_start hstart).wellFormed
  have hleft := Run.budgetLeft_of_start hstart
  have hrounds := Run.reviewRounds_of_start hstart
  have hsaturated := hcontents.saturated h.wellFormed hstarted hrules h.saturated
  have hbudget : (started.waveJobs registry started.wave).length +
      (started.store.jobs registry.readingRulesFor).length ≤ started.budgetLeft settings := by
    rw [Run.length_waveJobs_of_start hstart, ← hcontents.length_jobs h.wellFormed hstarted,
      ← hcontents.length_jobs h.wellFormed hstarted, hleft]
    exact h.cost_le hkeys hseeds
  obtain ⟨last, hlast, hrests, hle⟩ := (Run.Reachable.start hstart).toFixpoint_of_saturated
    (Run.phase_of_start hstart) hsaturated hrebuilt.deferred hbudget
  rw [hrounds] at hle
  exact ⟨last, hlast, hrests, hle⟩

/-- The second run ends with a model, since nothing is left loose. -/
theorem exists_finish (h : model.Complete registry settings seeds)
    (hstart : Run.start registry settings seeds' = .ok started)
    (hrebuilt : Run.Rebuilt model.store started) (hrests : Run.Rests started last) :
    ∃ model', last.finish = .ok model' := by
  have hstarted := (Run.accounts_of_start hstart).wellFormed
  have hloose : last.loose? = none := by
    rw [Run.loose?_eq_none_iff, hrests.deferred, hrests.store]
    exact ⟨hrebuilt.deferred, hrebuilt.contents.dangling_eq_nil h.wellFormed hstarted h.closed⟩
  exact ⟨_, Run.finish_eq_ok_iff.2 ⟨hloose, rfl⟩⟩

end Model.Complete

/-- The run that led from the seeds to `model'` has renewed `model`: the two hold the
same concepts and list their keys in the same order, nothing was merged, there was one
round of review at most, and rules have added nothing to what the seeds had led to. -/
structure Model.Renews (registry : Registry) (settings : Settings) (seeds : List Concept)
    (model model' : Model) : Prop where
  contents : model.store.SameContents model'.store
  order : model.order.map model.store.keyOf? = model'.order.map model'.store.keyOf?
  merges : model'.stats.merges = 0
  reviewRounds : model'.stats.reviewRounds ≤ 1
  seeded : ∃ started, Run.start registry settings seeds = .ok started ∧
    model'.store = started.store
  isSeed : ∀ entry ∈ model'.store.entries, entry.origin.isSeed = true

/-- A run that settles with what the concepts of the model have led to renews the
model. -/
theorem Model.Complete.renews {registry : Registry} {settings : Settings}
    {seeds seeds' : List Concept} {model model' : Model} {started last : Run}
    (h : model.Complete registry settings seeds)
    (hstart : Run.start registry settings seeds' = .ok started)
    (hrebuilt : Run.Rebuilt model.store started) (hrests : Run.Rests started last)
    (hrounds : last.stats.reviewRounds ≤ 1) (hfinish : last.finish = .ok model') :
    model.Renews registry settings seeds' model' := by
  have hstarted := (Run.accounts_of_start hstart).wellFormed
  obtain ⟨-, hstore, horder, hstats⟩ := Run.finish_ok hfinish
  rw [hrests.store] at hstore horder
  exact
    { contents := hstore ▸ hrebuilt.contents
      order := by
        rw [h.order, horder, hstore]
        exact hrebuilt.contents.keyOf?_precedence h.wellFormed hstarted
      merges := by
        rw [hstats]
        exact hrests.merges.trans hrebuilt.merges
      reviewRounds := hstats ▸ hrounds
      seeded := ⟨started, hstart, hstore⟩
      isSeed := hstore ▸ Run.isSeed_of_start hstart }

/-- If ordinary rules look at nothing that grows and model-reading rules at contents
only, then the concepts of a model over seeds with different keys, given as seeds in any
order, expand to the same model without a merge, and rules add nothing. -/
theorem expand_renews {registry : Registry} {settings : Settings} {seeds seeds' : List Concept}
    {model : Model} (hrules : registry.IsFunctional) (hkeys : (seeds.map (·.key)).Nodup)
    (h : registry.expand settings seeds = .ok model) (hseeds : seeds'.Perm model.concepts) :
    ∃ model', registry.expand settings seeds' = .ok model' ∧
      model.Renews registry settings seeds' model' := by
  have hcomplete := Model.complete_of_expand hrules h
  obtain ⟨started, hstart, hrebuilt⟩ :=
    (hcomplete.reseeds hseeds).rebuilds hcomplete.wellFormed hcomplete.schema settings
  obtain ⟨last, hlast, hrests, hle⟩ := hcomplete.exists_last hrules hkeys hseeds hstart hrebuilt
  obtain ⟨model', hfinish⟩ := hcomplete.exists_finish hstart hrebuilt hrests
  refine ⟨model', ?_, hcomplete.renews hstart hrebuilt hrests hle hfinish⟩
  rw [(Run.Reachable.start hstart).expand_eq, bind_of_eq_ok hlast]
  exact hfinish

/-! ## A bookshelf -/

namespace Bookshelf

/-- The shelf, which lists its books. -/
def shelf : Concept :=
  { kind := "S" }

/-- A book, by number, which says where it stands. -/
def book (n : Int64) : Concept where
  kind := "B"
  fields := [.int n]
  payload := .ofList [("on", shelf.reference)]

/-- A comment on a book. -/
def comment (n : Int64) : Concept :=
  { kind := "A", fields := [(book n).reference] }

/-- The first book comes with a second volume, which is commented on. -/
def continued : Rule where
  name := "continued"
  expand concept _ :=
    .ok (if concept.fields = [.int 1] then [comment 2, book 2] else [])

/-- The shelf lists every book. -/
def list : Rule where
  name := "list"
  readsModel := true
  expand concept store :=
    .ok [concept.setAttribute "books"
      (.list ((store.keys.filter fun key => key.kind = "B").map Key.toValue))]

/-- Shelves, books and comments. -/
def registry : Registry where
  schema := .ofKinds
    [{ name := "A", keyFields := ["to"] }, { name := "B", keyFields := ["n"] },
      { name := "S", cumulative := .ofNames ["books"] }]
  rules := .ofList [("B", [continued]), ("S", [list])]

/-- An empty shelf, and the first book. -/
def seeds : List Concept :=
  [shelf, book 1]

theorem rulesFor_registry (kind : String) :
    registry.rulesFor kind = if kind = "S" then [list] else if kind = "B" then [continued] else [] := by
  unfold Registry.rulesFor registry NameMap.ofList
  dsimp only [List.foldl]
  rw [NameMap.get?_insert, NameMap.get?_insert, NameMap.get?_empty]
  split_ifs <;> rfl

theorem isFunctional : registry.IsFunctional where
  ordinary kind rule hrule hreads a b store store' _ hkey _ := by
    rw [rulesFor_registry] at hrule
    split_ifs at hrule
    · rw [List.mem_singleton.1 hrule] at hreads
      cases hreads
    · rw [List.mem_singleton.1 hrule]
      have hfields : a.fields = b.fields := congrArg Key.fields hkey
      simp only [continued, hfields]
    · cases hrule
  reading kind rule hrule hreads concept store store' hstore hstore' hsame := by
    rw [rulesFor_registry] at hrule
    split_ifs at hrule
    · rw [List.mem_singleton.1 hrule]
      show Except.ok _ = Except.ok _
      rw [hsame.keys hstore hstore']
    · rw [List.mem_singleton.1 hrule] at hreads
      cases hreads
    · cases hrule

/-- Two volumes have been listed one after the other; offered backwards, the comment
waits for the second one at first, and nothing is added or merged. -/
theorem expand_bookshelf : ∃ model model', registry.expand {} seeds = .ok model ∧
    model.size = 4 ∧ model.stats.merges = 2 ∧
    registry.expand {} model.concepts.reverse = .ok model' ∧
    model.Renews registry {} model.concepts.reverse model' := by
  obtain ⟨model, hmodel, hcheck⟩ := Run.exists_finish_of_after registry {} seeds 7
    (fun model => model.size = 4 ∧ model.stats.merges = 2) (by cbv)
  obtain ⟨hsize, hmerges⟩ := of_decide_eq_true hcheck
  obtain ⟨model', hmodel', hrenews⟩ :=
    expand_renews isFunctional (by decide) hmodel model.concepts.reverse_perm
  exact ⟨model, model', hmodel, hsize, hmerges, hmodel', hrenews⟩

end Bookshelf

end ConceptExpansion
