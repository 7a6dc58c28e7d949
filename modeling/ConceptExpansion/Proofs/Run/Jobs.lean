/-
# The jobs of a batch, concept by concept

The jobs of a wave are listed by the concepts in it, those of a round by kinds.
Either way every concept contributes one job for each of its rules, and which
rules these are depends on its kind alone, so a concept contributes the same jobs
to every store that it lives to see. A round therefore has the jobs of all stored
concepts with their model-reading rules, in some order.
-/

import ConceptExpansion.Proofs.Run.Output

namespace ConceptExpansion

/-! ## Lists by groups -/

theorem flatMap_ite_eq {β κ : Type} [DecidableEq κ] {groups : List κ} (hgroups : groups.Nodup)
    (key : κ) (list : List β) :
    (groups.flatMap fun group => if key = group then list else []) =
      if key ∈ groups then list else [] := by
  induction groups with
  | nil => rfl
  | cons group groups ih =>
      obtain ⟨hfirst, hrest⟩ := List.nodup_cons.1 hgroups
      rw [List.flatMap_cons, ih hrest]
      by_cases hkey : key = group
      · subst hkey
        rw [if_pos rfl, if_neg hfirst, if_pos List.mem_cons_self, List.append_nil]
      · rw [if_neg hkey, List.nil_append]
        simp only [List.mem_cons, hkey, false_or]

/-- To go through a list group by group is to go through it in another order, if
nothing is made of what belongs to no group. -/
theorem flatMap_groups_perm {α β κ : Type} [DecidableEq κ] (key : α → κ) (f : α → List β)
    {groups : List κ} (hgroups : groups.Nodup) {list : List α}
    (houtside : ∀ a ∈ list, key a ∉ groups → f a = []) :
    (groups.flatMap fun group => (list.filter fun a => key a = group).flatMap f).Perm
      (list.flatMap f) := by
  induction list with
  | nil => simp
  | cons a list ih =>
      have hsplit : (groups.flatMap fun group =>
            ((a :: list).filter fun b => key b = group).flatMap f) =
          groups.flatMap fun group => (if key a = group then f a else []) ++
            (list.filter fun b => key b = group).flatMap f := by
        apply List.flatMap_congr
        intro group _
        by_cases heq : key a = group <;> simp [heq]
      have hfirst : (groups.flatMap fun group => if key a = group then f a else []) = f a := by
        rw [flatMap_ite_eq hgroups]
        split
        · rfl
        · next hmem => exact (houtside a List.mem_cons_self hmem).symm
      have hrest := ih fun b hb => houtside b (List.mem_cons_of_mem _ hb)
      rw [hsplit, List.flatMap_cons]
      refine (List.flatMap_append_perm groups _ _).symm.trans ?_
      rw [hfirst]
      exact hrest.append_left _

namespace Store

variable {store next : Store}

/-! ## Jobs -/

/-- What there is to ask about a stored concept: every rule of its kind. -/
def jobsOf (store : Store) (rulesOf : String → List Rule) (id : ConceptId) : List Job :=
  match store.get? id with
  | some entry => (rulesOf entry.concept.kind).map fun rule => ⟨id, rule⟩
  | none => []

/-- What there is to ask about all stored concepts: every pair of a stored concept
and a rule of its kind. -/
def jobs (store : Store) (rulesOf : String → List Rule) : List Job :=
  store.entries.toList.flatMap fun entry =>
    (rulesOf entry.concept.kind).map fun rule => ⟨entry.id, rule⟩

theorem jobsOf_of_get? {id : ConceptId} {entry : Entry} (h : store.get? id = some entry)
    (rulesOf : String → List Rule) :
    store.jobsOf rulesOf id = (rulesOf entry.concept.kind).map fun rule => ⟨id, rule⟩ := by
  rw [jobsOf, h]

theorem jobsOf_of_none {id : ConceptId} (h : store.get? id = none)
    (rulesOf : String → List Rule) : store.jobsOf rulesOf id = [] := by
  rw [jobsOf, h]

theorem length_jobs (store : Store) (rulesOf : String → List Rule) :
    (store.jobs rulesOf).length =
      (store.entries.toList.map fun entry => (rulesOf entry.concept.kind).length).sum := by
  simp [jobs, List.length_flatMap]

/-- How much there is to ask about a store depends on its keys. -/
theorem WellFormed.length_jobs (hstore : store.WellFormed) (rulesOf : String → List Rule) :
    (store.jobs rulesOf).length =
      (store.keys.map fun key => (rulesOf key.kind).length).sum := by
  have hkinds : (store.entries.toList.map fun entry => (rulesOf entry.concept.kind).length) =
      (store.entries.toList.map (·.key)).map fun key => (rulesOf key.kind).length := by
    rw [List.map_map]
    apply List.map_congr_left
    intro entry hentry
    have hkey := hstore.concept_key_of_mem (Array.mem_toList_iff.1 hentry)
    rw [Function.comp_apply, ← hkey]
    rfl
  rw [Store.length_jobs, hkinds]
  exact (hstore.keys_perm.map _).sum_eq.symm

theorem WellFormed.flatMap_jobsOf (hstore : store.WellFormed) (rulesOf : String → List Rule) :
    store.ids.flatMap (store.jobsOf rulesOf) = store.jobs rulesOf := by
  unfold ids jobs
  rw [List.flatMap_map]
  apply List.flatMap_congr
  intro entry hentry
  exact jobsOf_of_get? (hstore.get?_of_mem (Array.mem_toList_iff.1 hentry)) rulesOf

/-- What there is to ask about a concept does not change while the store grows. -/
theorem Grows.jobsOf (hgrows : Grows store next) (hstore : store.WellFormed)
    (rulesOf : String → List Rule) {id : ConceptId} (hid : id ∈ store.ids) :
    next.jobsOf rulesOf id = store.jobsOf rulesOf id := by
  obtain ⟨entry, hentry⟩ := hstore.mem_ids.1 hid
  obtain ⟨later, hlater, -, -, hwithin⟩ := hgrows.entry hentry
  rw [jobsOf_of_get? hentry, jobsOf_of_get? hlater, hwithin.kind]

end Store

namespace Run

variable {registry : Registry} {run : Run}

theorem waveJobs_eq_flatMap (registry : Registry) (run : Run) (ids : List ConceptId) :
    run.waveJobs registry ids = ids.flatMap (run.store.jobsOf registry.rulesFor) := rfl

theorem nodup_modelReadingKinds (registry : Registry) : registry.modelReadingKinds.Nodup := by
  unfold Registry.modelReadingKinds
  unfold List.Nodup
  rw [List.pairwise_map]
  apply (registry.rules.ascending.filter _).imp
  rintro a b hlt heq
  exact String.lt_irrefl _ (heq ▸ hlt)

/-- A round asks every model-reading rule about every stored concept of its
kind, once. -/
theorem reviewJobs_perm (registry : Registry) (hrun : run.store.WellFormed) :
    (run.reviewJobs registry).Perm (run.store.jobs registry.readingRulesFor) := by
  have hkind : ∀ entry ∈ run.store.entries.toList, entry.concept.kind = entry.key.kind := by
    intro entry hentry
    exact congrArg Key.kind (hrun.concept_key_of_mem (Array.mem_toList_iff.1 hentry))
  have hgroups : (run.reviewJobs registry).Perm
      (registry.modelReadingKinds.flatMap fun kind =>
        (run.store.entries.toList.filter fun entry => entry.key.kind = kind).flatMap fun entry =>
          (registry.readingRulesFor entry.key.kind).map fun rule => ⟨entry.id, rule⟩) := by
    apply List.Perm.flatMap_left
    intro kind _
    have hlisted : ((run.store.ofKind kind).flatMap fun entry =>
          (registry.readingRulesFor kind).map fun rule => (⟨entry.id, rule⟩ : Job)) =
        (run.store.ofKind kind).flatMap fun entry =>
          (registry.readingRulesFor entry.key.kind).map fun rule => ⟨entry.id, rule⟩ := by
      apply List.flatMap_congr
      intro entry hentry
      rw [(hrun.mem_ofKind.1 hentry).2]
    rw [hlisted]
    exact (hrun.ofKind_perm kind).flatMap_right _
  have hjobs : run.store.jobs registry.readingRulesFor =
      run.store.entries.toList.flatMap fun entry =>
        (registry.readingRulesFor entry.key.kind).map fun rule => ⟨entry.id, rule⟩ := by
    apply List.flatMap_congr
    intro entry hentry
    rw [hkind entry hentry]
  rw [hjobs]
  refine hgroups.trans (flatMap_groups_perm (fun entry : Entry => entry.key.kind) _
    (nodup_modelReadingKinds registry) ?_)
  intro entry _ houtside
  rw [List.map_eq_nil_iff]
  unfold Registry.readingRulesFor
  rw [List.filter_eq_nil_iff]
  intro rule hrule hreads
  exact houtside (mem_modelReadingKinds hrule hreads)

end Run

end ConceptExpansion
