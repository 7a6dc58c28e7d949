/-
# Every stored concept comes from a seed

The origin of a stored concept names a seed or a rule together with the key of a
source. Origins can be taken at their word. A named seed was given at that position,
with that key. A named rule is one for the kind of the source, and it was invoked on
the source in a batch of the run and returned a concept with that key, however long
the concept had to wait before it was admitted.

The source was stored before the concept, and the concept is one step further from
the seeds than the source. So following origins leads to a seed, after no more steps
than a derivation chain may have.
-/

import ConceptExpansion.Proofs.Run.Provenance

namespace ConceptExpansion

/-- Following origins from the stored concept ends at a seed after this many steps. -/
inductive Store.ReachesSeed (store : Store) : Nat → Entry → Prop
  /-- The concept was given as a seed itself. -/
  | seed {entry : Entry} {position : Nat} (horigin : entry.origin = .seed position) :
      ReachesSeed store 0 entry
  /-- A rule has produced the concept from one that is stored. -/
  | rule {steps : Nat} {entry source : Entry} {name : String}
      (horigin : entry.origin = .rule name source.key) (hsource : source ∈ store.entries)
      (h : ReachesSeed store steps source) : ReachesSeed store (steps + 1) entry

namespace Run

variable {registry : Registry} {settings : Settings} {seeds : List Concept}
  {passed : List Run} {run last : Run}

/-- In the batch with which the state goes on, a rule of this name is invoked on the
stored concept `source`, as it stands then, and returns a concept with the key of
`entry`, which is not stored yet. -/
structure Yields (registry : Registry) (run : Run) (name : String) (source entry : Entry) :
    Prop where
  unstored : run.store.size ≤ entry.id.index
  invoked : ∃ rule ∈ registry.rulesFor source.concept.kind, rule.name = name ∧
    ⟨source.id, rule⟩ ∈ run.batchJobs registry ∧
    ∃ described, run.store.get? source.id = some described ∧ described.key = source.key ∧
      registry.schema.Within described.concept source.concept ∧
      ∃ products, rule.expand described.concept run.store = .ok products ∧
        ∃ product ∈ products, product.key = entry.key

/-- A batch of the run has yielded the stored concept `entry` from the older stored
concept `source`, by the rule of this name. -/
structure Produced (registry : Registry) (passed : List Run) (name : String)
    (source entry : Entry) : Prop where
  older : source.id.index < entry.id.index
  yields : ∃ run ∈ passed, Yields registry run name source entry

/-- The origin of a stored concept is true, and following origins from it leads to a
seed. -/
structure Traced (registry : Registry) (settings : Settings) (seeds : List Concept)
    (passed : List Run) (store : Store) (entry : Entry) : Prop where
  seed : ∀ position, entry.origin = .seed position →
    ∃ seed, seeds[position]? = some seed ∧ seed.key = entry.key
  rule : ∀ name key, entry.origin = .rule name key →
    ∃ source ∈ store.entries, source.key = key ∧ Produced registry passed name source entry
  ends : ∃ steps ≤ settings.maxDepth, store.ReachesSeed steps entry

/-- A stored concept is a seed that was given under its key, or a rule has produced it
from a stored concept that is one step nearer to the seeds. -/
theorem Course.origin_cases (h : Course registry settings seeds passed run) {id : ConceptId}
    {entry : Entry} (hget : run.store.get? id = some entry) :
    (∃ position seed, entry.origin = .seed position ∧ seeds[position]? = some seed ∧
      seed.key = entry.key ∧ run.depthOf entry.id = 0) ∨
    ∃ name source, entry.origin = .rule name source.key ∧ source ∈ run.store.entries ∧
      Produced registry passed name source entry ∧
      run.depthOf entry.id = run.depthOf source.id + 1 := by
  obtain ⟨offer, hissued, hbecame⟩ := h.attributed.stored hget
  cases hissued with
  | @seed position seed hseed =>
      exact .inl ⟨position, seed, hbecame.origin.symm, hseed, hbecame.key, hbecame.depth⟩
  | @product earlier job described products concept hearlier hbound hjob hdescribed hproducts
      hconcept =>
      obtain ⟨before, hbefore, hgrows⟩ := h.of_mem hearlier
      have hrun := h.reachable.accounts.wellFormed
      obtain ⟨source, hsource, hkey, -, hwithin⟩ := hgrows.entry hdescribed
      rw [hbefore.reachable.accounts.schema] at hwithin
      have hid : source.id = job.source := hrun.id_of_get? hsource
      have hindex := index_lt_of_get? hdescribed
      obtain ⟨described', hdescribed', hrule⟩ :=
        fitting_batchJobs registry hbefore.reachable.accounts.wellFormed _ hjob
      obtain rfl : described' = described := Option.some.inj (hdescribed'.symm.trans hdescribed)
      have horigin : entry.origin = .rule job.rule.name source.key := by
        rw [hkey]
        exact hbecame.origin.symm
      refine .inr ⟨job.rule.name, source, horigin, Array.mem_of_getElem? hsource, ⟨?_, ?_⟩, ?_⟩
      · rw [hid]
        exact hindex.trans_le hbound
      · rw [← hid] at hdescribed
        refine ⟨earlier, hearlier, hbound, job.rule, hwithin.kind ▸ hrule, rfl, ?_, described',
          hdescribed, hkey.symm, hwithin, products, hproducts, concept, hconcept, hbecame.key⟩
        rw [hid]
        exact hjob
      · rw [hid, (h.extends_of_mem hearlier).depthOf hindex]
        exact hbecame.depth

/-- Following origins from a stored concept leads to a seed in as many steps as the
concept is away from the seeds. -/
theorem Course.reachesSeed (h : Course registry settings seeds passed run) {id : ConceptId}
    {entry : Entry} (hget : run.store.get? id = some entry) :
    run.store.ReachesSeed (run.depthOf entry.id) entry := by
  -- Sources are older than what is produced from them.
  induction hindex : entry.id.index using Nat.strong_induction_on generalizing id entry with
  | _ index ih =>
      rcases h.origin_cases hget with
        ⟨position, seed, horigin, -, -, hdepth⟩ | ⟨name, source, horigin, hsource, hproduced, hdepth⟩
      · rw [hdepth]
        exact .seed horigin
      · have hget' := h.reachable.accounts.wellFormed.get?_of_mem hsource
        rw [hdepth]
        exact .rule horigin hsource (ih source.id.index (hindex ▸ hproduced.older) hget' rfl)

theorem Course.traced (h : Course registry settings seeds passed run) {entry : Entry}
    (hentry : entry ∈ run.store.entries) :
    Traced registry settings seeds passed run.store entry := by
  have hget := h.reachable.accounts.wellFormed.get?_of_mem hentry
  refine ⟨fun position horigin => ?_, fun name key horigin => ?_, ?_⟩
  · rcases h.origin_cases hget with ⟨position', seed, hseed, hgiven, hkey, -⟩ | ⟨_, _, hrule, -⟩
    · cases hseed.symm.trans horigin
      exact ⟨seed, hgiven, hkey⟩
    · cases hrule.symm.trans horigin
  · rcases h.origin_cases hget with ⟨_, _, hseed, -⟩ | ⟨_, source, hrule, hsource, hproduced, -⟩
    · cases hseed.symm.trans horigin
    · cases hrule.symm.trans horigin
      exact ⟨source, hsource, rfl, hproduced⟩
  · obtain ⟨offer, -, hbecame⟩ := h.attributed.stored hget
    exact ⟨_, hbecame.depth ▸ hbecame.shallow, h.reachesSeed hget⟩

end Run

/-- In a model the origin of every stored concept is true: the seed was given at that
position under that key, or a rule of that name, registered for the kind of an older
stored concept, was invoked on it during the run and returned a concept with that key.
Following origins from any stored concept ends at a seed, after no more steps than the
settings allow. -/
theorem expand_traced {registry : Registry} {settings : Settings} {seeds : List Concept}
    {model : Model} (h : registry.expand settings seeds = .ok model) :
    ∃ passed last, Run.Course registry settings seeds passed last ∧
      last.phase = .settled ∧ last.finish = .ok model ∧
      ∀ entry ∈ model.store.entries,
        Run.Traced registry settings seeds passed model.store entry := by
  obtain ⟨passed, last, hcourse, hphase, hfinish⟩ := Run.course_of_expand h
  obtain ⟨-, hstore, -⟩ := Run.finish_ok hfinish
  refine ⟨passed, last, hcourse, hphase, hfinish, fun entry hentry => ?_⟩
  rw [hstore] at hentry ⊢
  exact hcourse.traced hentry

/-! ## A dynasty -/

namespace Dynasty

/-- A ruler, by number. -/
def ruler (n : Int64) : Concept :=
  { kind := "R", fields := [.int n] }

/-- The portrait of a ruler. -/
def portrait (n : Int64) : Concept :=
  { kind := "P", fields := [(ruler n).reference] }

/-- The first ruler orders a portrait of the third one and is followed by the second,
who is followed by the third. -/
def reign : Rule where
  name := "reign"
  expand concept _ :=
    .ok (if concept = ruler 1 then [portrait 3, ruler 2]
      else if concept = ruler 2 then [ruler 3] else [])

/-- Rulers and their portraits. -/
def registry : Registry where
  schema := .ofKinds [{ name := "P", keyFields := ["of"] }, { name := "R", keyFields := ["n"] }]
  rules := .ofList [("R", [reign])]

/-- The portrait has to wait for two waves, but its origin is still the first ruler,
one step from the seeds. -/
theorem expand_dynasty : ∃ model, registry.expand { maxDepth := 2 } [ruler 1] = .ok model ∧
    ∃ entry ∈ model.store.entries, entry.id.index = 3 ∧
      entry.origin = .rule "reign" (ruler 1).key ∧
      ∃ passed, Run.Traced registry { maxDepth := 2 } [ruler 1] passed model.store entry := by
  obtain ⟨model, hmodel, hcheck⟩ := Run.exists_model_of_after registry { maxDepth := 2 } [ruler 1] 5
    (fun store => store.entries.any fun entry =>
      entry.id.index = 3 ∧ entry.origin = .rule "reign" (ruler 1).key) (by cbv)
  obtain ⟨entry, hentry, hsays⟩ := Array.any_eq_true'.1 hcheck
  obtain ⟨hindex, horigin⟩ := of_decide_eq_true hsays
  obtain ⟨passed, last, -, -, -, htraced⟩ := expand_traced hmodel
  exact ⟨model, hmodel, entry, hentry, hindex, horigin, passed, htraced entry hentry⟩

end Dynasty

end ConceptExpansion
