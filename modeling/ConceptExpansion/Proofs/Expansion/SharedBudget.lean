/-
# Many seeds are not a runaway

The budget is granted per seed, but it is spent by the run as a whole, and the
closures of the seeds may overlap, wait for each other or contradict each other.
They can only share invocations: without model-reading rules every rule is
invoked at most once on each stored concept, and if rules are determined, every
stored concept has a key from the closure of some seed. So at every moment of a
run, also of one that will fail, the invocations charged and those of the batch
ahead are pairs of a key and a rule, and the pairs are at most as many as those
of all closures taken together. If no single seed needs more than is granted for
one, the budget never runs out.
-/

import ConceptExpansion.Proofs.Expansion.Derivation
import ConceptExpansion.Proofs.Expansion.SingleExpansion
import ConceptExpansion.Proofs.Expansion.Termination

namespace ConceptExpansion

section SharedBudget

variable {registry : Registry} {settings : Settings} {seeds : List Concept}

/-! ## What a seed costs -/

/-- What is derived from some seeds is derived from one of them. -/
theorem Derived.exists_seed {concept : Concept} (h : Derived registry seeds concept) :
    ∃ seed ∈ seeds, Derived registry [seed] concept := by
  induction h with
  | @seed seed hseed => exact ⟨seed, hseed, .seed List.mem_cons_self⟩
  | product _ hrule hexpand hproduct ih =>
      obtain ⟨seed, hseed, hsource⟩ := ih
      exact ⟨seed, hseed, .product hsource hrule hexpand hproduct⟩

/-- The key is that of a concept derived from the seed. -/
def Registry.LeadsTo (registry : Registry) (seed : Concept) (key : Key) : Prop :=
  ∃ concept, Derived registry [seed] concept ∧ concept.key = key

/-- The pairs of a key from the list and a rule of its kind. -/
def Registry.invocations (registry : Registry) (keys : List Key) : Nat :=
  (keys.map fun key => (registry.rulesFor key.kind).length).sum

/-- The pairs of a key that the seed leads to and a rule of its kind are at most
this many. -/
def Registry.CostsAtMost (registry : Registry) (seed : Concept) (limit : Nat) : Prop :=
  ∀ keys : List Key, keys.Nodup → (∀ key ∈ keys, registry.LeadsTo seed key) →
    registry.invocations keys ≤ limit

/-- Among more keys there are no fewer pairs. -/
theorem Registry.invocations_mono {keys keys' : List Key} (hkeys : keys.Nodup)
    (hsubset : keys ⊆ keys') : registry.invocations keys ≤ registry.invocations keys' := by
  obtain ⟨part, hperm, hsublist⟩ := List.subperm_of_subset hkeys hsubset
  refine (hperm.map _).sum_eq.symm.le.trans ?_
  exact (hsublist.map _).sum_le_sum fun _ _ => Nat.zero_le _

/-- A list that is covered by groups has a sum of at most the number of groups times
what a list from one group can have. -/
theorem sum_map_le_of_cover {α β : Type} (f : α → Nat) (covers : β → α → Prop) {limit : Nat}
    {groups : List β}
    (hgroups : ∀ group ∈ groups, ∀ list : List α, list.Nodup →
      (∀ a ∈ list, covers group a) → (list.map f).sum ≤ limit)
    {list : List α} (hlist : list.Nodup) (hcover : ∀ a ∈ list, ∃ group ∈ groups, covers group a) :
    (list.map f).sum ≤ limit * groups.length := by
  classical
  induction groups generalizing list with
  | nil =>
      have hnil : list = [] := List.eq_nil_iff_forall_not_mem.2 fun a ha => by
        obtain ⟨group, hgroup, -⟩ := hcover a ha
        exact List.not_mem_nil hgroup
      simp [hnil]
  | cons group groups ih =>
      -- What the first group covers is split off; the other groups cover the rest.
      have hfirst : ((list.filter fun a => covers group a).map f).sum ≤ limit := by
        apply hgroups group List.mem_cons_self _ (hlist.filter _)
        intro a ha
        exact of_decide_eq_true (List.mem_filter.1 ha).2
      have hrest : ((list.filter fun a => !decide (covers group a)).map f).sum ≤
          limit * groups.length := by
        apply ih (fun other hother => hgroups other (List.mem_cons_of_mem _ hother))
          (hlist.filter _)
        intro a ha
        obtain ⟨hmem, hnot⟩ := List.mem_filter.1 ha
        obtain ⟨other, hother, hcovers⟩ := hcover a hmem
        rcases List.mem_cons.1 hother with rfl | hother
        · simp [hcovers] at hnot
        · exact ⟨other, hother, hcovers⟩
      have hsplit : (list.map f).sum = ((list.filter fun a => covers group a).map f).sum +
          ((list.filter fun a => !decide (covers group a)).map f).sum := by
        rw [← List.sum_append, ← List.map_append]
        exact ((List.filter_append_perm _ list).map f).sum_eq.symm
      rw [hsplit, List.length_cons, Nat.mul_succ, Nat.add_comm]
      exact Nat.add_le_add hrest hfirst

/-- Seeds that each cost at most so much lead to no more pairs than that for every
one of them. -/
theorem Registry.invocations_le {limit : Nat}
    (hcost : ∀ seed ∈ seeds, registry.CostsAtMost seed limit) {keys : List Key}
    (hkeys : keys.Nodup) (hled : ∀ key ∈ keys, ∃ seed ∈ seeds, registry.LeadsTo seed key) :
    registry.invocations keys ≤ limit * seeds.length :=
  sum_map_le_of_cover _ registry.LeadsTo hcost hkeys hled

/-! ## What a run is charged -/

namespace Run

variable {passed : List Run} {run : Run}

/-- Without model-reading rules there are only waves. -/
theorem currentRoundJobs_of_ordinary (hrun : run.store.WellFormed)
    (hordinary : ∀ kind, ∀ rule ∈ registry.rulesFor kind, rule.readsModel = false) :
    run.currentRoundJobs registry = [] := by
  by_cases hphase : run.phase = .reviewing
  · rw [currentRoundJobs_of_reviewing hphase]
    refine List.eq_nil_iff_forall_not_mem.2 fun job hjob => ?_
    obtain ⟨entry, -, hrule, hreads⟩ := (mem_reviewJobs hrun).1 hjob
    rw [hordinary _ _ hrule] at hreads
    cases hreads
  · exact currentRoundJobs_of_ne hphase

/-- Without model-reading rules the invocations charged so far and those of the batch
ahead are no more than there is to ask about the concepts stored so far. -/
theorem Course.charge_le (h : Course registry settings seeds passed run)
    (hordinary : ∀ kind, ∀ rule ∈ registry.rulesFor kind, rule.readsModel = false) :
    run.stats.ruleInvocations + (run.batchJobs registry).length ≤
      (run.store.jobs registry.rulesFor).length := by
  have hrun := h.reachable.accounts.wellFormed
  have hbatch : run.batchJobs registry = run.currentWaveJobs registry := by
    rw [batchJobs, currentRoundJobs_of_ordinary hrun hordinary, List.append_nil]
  have hbatches : passed.flatMap (batchJobs registry) =
      passed.flatMap (currentWaveJobs registry) := by
    apply List.flatMap_congr
    intro earlier hearlier
    obtain ⟨before, hbefore, -⟩ := h.of_mem hearlier
    rw [batchJobs, currentRoundJobs_of_ordinary hbefore.reachable.accounts.wellFormed hordinary,
      List.append_nil]
  have hcharged : run.stats.ruleInvocations + (run.batchJobs registry).length =
      ((passed.flatMap currentWave ++ run.currentWave).flatMap
        (run.store.jobsOf registry.rulesFor)).length := by
    rw [h.ruleInvocations, hbatches, hbatch, h.waveJobs_eq, currentWaveJobs,
      waveJobs_eq_flatMap, List.flatMap_append, List.length_append]
  have hwaves : (passed.flatMap currentWave ++ run.wave).Perm run.store.ids :=
    ((wave_perm (h.tally.nodup_fresh hrun)).append_left _).trans h.tally.stored
  have hsublist : (passed.flatMap currentWave ++ run.currentWave).Sublist
      (passed.flatMap currentWave ++ run.wave) :=
    run.currentWave_sublist.append_left _
  calc run.stats.ruleInvocations + (run.batchJobs registry).length
      = ((passed.flatMap currentWave ++ run.currentWave).flatMap
          (run.store.jobsOf registry.rulesFor)).length := hcharged
    _ ≤ ((passed.flatMap currentWave ++ run.wave).flatMap
          (run.store.jobsOf registry.rulesFor)).length := (hsublist.flatMap _).length_le
    _ = (run.store.ids.flatMap (run.store.jobsOf registry.rulesFor)).length :=
        (hwaves.flatMap_right _).length_eq
    _ = (run.store.jobs registry.rulesFor).length := by rw [hrun.flatMap_jobsOf]

/-- If rules are determined, some seed leads to the key of every stored concept. -/
theorem Reachable.exists_leadsTo (h : Reachable registry settings seeds run)
    (hdetermined : registry.IsDetermined) {key : Key} (hkey : key ∈ run.store.keys) :
    ∃ seed ∈ seeds, registry.LeadsTo seed key := by
  have hspanned := h.spannedBy (Derived.closed hdetermined)
  obtain ⟨concept, hconcept, hsame⟩ :=
    hspanned.stored.exists_of_mem_keys hspanned.wellFormed hkey
  obtain ⟨seed, hseed, hderived⟩ := hconcept.exists_seed
  exact ⟨seed, hseed, concept, hderived, hsame⟩

/-- At every moment of a run the invocations charged and those of the batch ahead are
covered by what the seeds cost. -/
theorem Reachable.charge_le (h : Reachable registry settings seeds run)
    (hordinary : ∀ kind, ∀ rule ∈ registry.rulesFor kind, rule.readsModel = false)
    (hdetermined : registry.IsDetermined) {limit : Nat}
    (hcost : ∀ seed ∈ seeds, registry.CostsAtMost seed limit) :
    run.stats.ruleInvocations + (run.batchJobs registry).length ≤ limit * seeds.length := by
  have hrun := h.accounts.wellFormed
  obtain ⟨passed, hcourse⟩ := h.exists_course
  refine (hcourse.charge_le hordinary).trans ?_
  rw [hrun.length_jobs]
  exact Registry.invocations_le hcost run.store.nodup_keyList
    fun key hkey => h.exists_leadsTo hdetermined hkey

end Run

/-- Suppose that no rule reads the model and that rules are determined by keys and by
attributes that never grow. If what each single seed leads to takes no more invocations
than are granted for one seed, then no number of seeds is mistaken for a runaway
expansion, however much they share. -/
theorem expand_within_shared_budget
    (hordinary : ∀ kind, ∀ rule ∈ registry.rulesFor kind, rule.readsModel = false)
    (hdetermined : registry.IsDetermined)
    (hcount : settings.maxExpansions * seeds.length < 2 ^ 64)
    (hcost : ∀ seed ∈ seeds, registry.CostsAtMost seed settings.maxExpansions)
    (limit : Nat) (chain : List Key) :
    registry.expand settings seeds ≠ .error (.nonTerminating (.expansions limit) chain) := by
  intro herror
  obtain ⟨rfl, run, hreach, hover⟩ := Run.expand_overrun_iff.1 ⟨chain, herror⟩
  have hcharge := hreach.charge_le hordinary hdetermined hcost
  have hgranted : settings.maxExpansions * seeds.length ≤ settings.budget seeds.length := by
    have hseeds := Nat.mul_le_mul_left settings.maxExpansions (le_max_left seeds.length 1)
    unfold Settings.budget Settings.maxCount
    omega
  omega

end SharedBudget

/-! ## A census of a household -/

namespace Census

/-- A letter that has to wait, a person, and the person whom the census would find
anyway. -/
def household : List Concept :=
  seeds ++ [{ kind := "P", fields := [.int 2] }]

/-- The keys that the household leads to. -/
def householdKeys : List Key :=
  household.map (·.key) ++ [complete.key]

theorem rule_cases {kind : String} {rule : Rule} (h : rule ∈ registry.rulesFor kind) :
    rule = find ∨ rule = count := by
  obtain ⟨rules, hrules, hrule⟩ := Run.mem_rulesFor_iff.1 h
  have hentries : registry.rules.entries = [("C", [find]), ("P", [count])] := by cbv
  rw [hentries] at hrules
  rcases List.mem_cons.1 hrules with h | h
  · cases h
    exact .inl (List.mem_singleton.1 hrule)
  · cases List.mem_singleton.1 h
    exact .inr (List.mem_singleton.1 hrule)

theorem key_mem_of_derived {seed concept : Concept} (hseed : seed ∈ household)
    (h : Derived registry [seed] concept) : concept.key ∈ householdKeys := by
  cases h with
  | seed hmem =>
      rw [List.mem_singleton.1 hmem]
      exact List.mem_append_left _ (List.mem_map_of_mem hseed)
  | product _ hrule hexpand hproduct =>
      rcases rule_cases hrule with rfl | rfl
      · cases hexpand
        rw [List.mem_singleton.1 hproduct]
        decide
      · cases hexpand
        rw [List.mem_singleton.1 hproduct]
        exact List.mem_append_right _ List.mem_cons_self

/-- Two persons and a census take three invocations, whichever seed they come from. -/
theorem costsAtMost {seed : Concept} (hseed : seed ∈ household) :
    registry.CostsAtMost seed 3 := by
  intro keys hkeys hled
  have hsubset : keys ⊆ householdKeys := by
    intro key hkey
    obtain ⟨concept, hderived, rfl⟩ := hled key hkey
    exact key_mem_of_derived hseed hderived
  have hall : registry.invocations householdKeys = 3 := by cbv
  exact (Registry.invocations_mono hkeys hsubset).trans hall.le

/-- Three invocations for each seed suffice for the household, although the person 2
is a seed and is found once more. -/
theorem expand_household : (∀ seed ∈ household, registry.CostsAtMost seed 3) ∧
    ∀ limit chain, registry.expand { maxExpansions := 3 } household ≠
      .error (.nonTerminating (.expansions limit) chain) := by
  have hordinary : ∀ kind, ∀ rule ∈ registry.rulesFor kind, rule.readsModel = false := by
    intro kind rule hrule
    rcases rule_cases hrule with rfl | rfl <;> rfl
  exact ⟨fun _ => costsAtMost,
    expand_within_shared_budget hordinary isDetermined (by decide) fun _ => costsAtMost⟩

end Census

end ConceptExpansion
