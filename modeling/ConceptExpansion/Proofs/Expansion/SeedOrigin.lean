/-
# When a seeded concept has another origin than the seed

A stored concept has the origin of the offer that was admitted under its key. A seed
that can be admitted along with the other seeds comes before anything that a rule
returns. A seed that has to wait for a key reference may be overtaken: the batch that
supplies the reference can also return a concept with the key of the seed, which is
admitted as it comes in, while the seed is tried again only at the end of the batch and
adds nothing any more. The origin of the concept is then the rule.

To be overtaken while it waits is the only way in which a seed is not the origin of the
concept that is stored under its key.
-/

import ConceptExpansion.Model.Export
import ConceptExpansion.Proofs.Expansion.Ancestry
import ConceptExpansion.Proofs.Expansion.Closure

namespace ConceptExpansion

namespace Run

variable {registry : Registry} {settings : Settings} {seeds : List Concept}
  {passed : List Run} {run last : Run} {seed : Concept}

/-- The concept has been offered and waits for a key reference that leads nowhere. -/
structure Awaits (run : Run) (concept : Concept) : Prop where
  deferred : ∃ offer ∈ run.deferred, offer.concept = concept
  unstored : ∀ entry ∈ run.store.entries, entry.key ≠ concept.key
  missing : ∃ target, run.store.FirstMissing concept.keyRefs target

/-- A seed whose key is not stored waits. -/
theorem Course.awaits (h : Course registry settings seeds passed run) (hseed : seed ∈ seeds)
    (hunstored : ∀ entry ∈ run.store.entries, entry.key ≠ seed.key) : run.Awaits seed := by
  obtain ⟨offer, hoffer, rfl⟩ := h.exists_deferred (List.mem_append_left _ hseed) hunstored
  obtain ⟨target, htarget⟩ := Option.ne_none_iff_exists'.1 (h.reachable.waits offer hoffer)
  exact ⟨⟨offer, hoffer, rfl⟩, hunstored, target,
    h.reachable.accounts.wellFormed.missingTarget?_eq_some_iff.1 htarget⟩

/-- A course begins with a state of which the store has only grown since. -/
theorem Course.exists_start (h : Course registry settings seeds passed run) :
    ∃ started, Run.start registry settings seeds = .ok started ∧
      started.store.Grows run.store := by
  induction h with
  | start h => exact ⟨_, h, .refl _⟩
  | step hrun _ h ih =>
      obtain ⟨started, hstart, hgrows⟩ := ih
      have hwellFormed := hrun.reachable.accounts.wellFormed
      exact ⟨started, hstart, hgrows.trans (keeps_of_move hwellFormed (move_of_step h)).2.1⟩

/-- While a store grows, a key keeps its identifier. -/
theorem index_lt_of_grows {store later : Store} (hlater : later.WellFormed)
    (hgrows : store.Grows later) {earlier entry : Entry} (hearlier : earlier ∈ store.entries)
    (hstore : store.WellFormed) (hentry : entry ∈ later.entries)
    (hkey : earlier.key = entry.key) : entry.id.index < store.size := by
  have hget := hstore.get?_of_mem hearlier
  obtain ⟨grown, hgrown, hsame, -⟩ := hgrows.entry hget
  have hfind := hlater.find?_of_get? hgrown
  rw [hsame, hkey, hlater.find?_of_get? (hlater.get?_of_mem hentry)] at hfind
  rw [Option.some.inj hfind, hlater.id_of_get? hgrown]
  exact index_lt_of_get? hget

/-- A seeded concept has a seed as its origin, or the seed was still waiting when a
batch yielded the concept. -/
theorem Course.seed_origin_cases (h : Course registry settings seeds passed run)
    (hseed : seed ∈ seeds) {entry : Entry} (hentry : entry ∈ run.store.entries)
    (hkey : entry.key = seed.key) :
    (∃ position given, entry.origin = .seed position ∧ seeds[position]? = some given ∧
      given.key = entry.key) ∨
    ∃ name source, entry.origin = .rule name source.key ∧ source ∈ run.store.entries ∧
      ∃ earlier ∈ passed, earlier.Awaits seed ∧ Yields registry earlier name source entry := by
  have hrun := h.reachable.accounts.wellFormed
  rcases h.origin_cases (hrun.get?_of_mem hentry) with
    ⟨position, given, horigin, hgiven, hsame, -⟩ | ⟨name, source, horigin, hsource, hproduced, -⟩
  · exact .inl ⟨position, given, horigin, hgiven, hsame⟩
  · obtain ⟨earlier, hearlier, hyields⟩ := hproduced.yields
    obtain ⟨before, hbefore, hgrows⟩ := h.of_mem hearlier
    refine .inr ⟨name, source, horigin, hsource, earlier, hearlier, hbefore.awaits hseed ?_, hyields⟩
    intro other hother hsame
    have hlt := index_lt_of_grows hrun hgrows hother hbefore.reachable.accounts.wellFormed hentry
      (hsame.trans hkey.symm)
    exact absurd hyields.unstored (Nat.not_le.2 hlt)

/-- What waits in a later state of a run has waited from the start. -/
theorem Course.start_awaits (h : Course registry settings seeds passed run) (hseed : seed ∈ seeds)
    (hawaits : run.Awaits seed) :
    ∃ started, Run.start registry settings seeds = .ok started ∧ started.Awaits seed := by
  obtain ⟨started, hstart, hgrows⟩ := h.exists_start
  refine ⟨started, hstart, (Course.start hstart).awaits hseed fun entry hentry hkey => ?_⟩
  have hwellFormed := (accounts_of_start hstart).wellFormed
  obtain ⟨grown, hgrown, hsame, -⟩ := hgrows.entry (hwellFormed.get?_of_mem hentry)
  exact hawaits.unstored grown (Array.mem_of_getElem? hgrown) (hsame.trans hkey)

end Run

/-- In a model every seed is stored under its key. The origin is a seed that was given
under that key, or it is a rule and a stored concept; the seed then had to wait when the
seeds were offered, and it still did so at the beginning of a batch in which the rule was
invoked on that concept and returned one with the key of the seed. -/
theorem expand_seed_origin {registry : Registry} {settings : Settings} {seeds : List Concept}
    {model : Model} (h : registry.expand settings seeds = .ok model) :
    ∃ passed last, Run.Course registry settings seeds passed last ∧
      last.phase = .settled ∧ last.finish = .ok model ∧
      ∀ seed ∈ seeds, ∃ entry ∈ model.store.entries, entry.key = seed.key ∧
        ((∃ position given, entry.origin = .seed position ∧ seeds[position]? = some given ∧
            given.key = entry.key) ∨
          ∃ name source, entry.origin = .rule name source.key ∧ source ∈ model.store.entries ∧
            (∃ started, Run.start registry settings seeds = .ok started ∧ started.Awaits seed) ∧
            ∃ run ∈ passed, run.Awaits seed ∧ Run.Yields registry run name source entry) := by
  obtain ⟨passed, last, hcourse, hphase, hfinish⟩ := Run.course_of_expand h
  obtain ⟨hdeferred, hstore, -⟩ := Run.finish_ok hfinish
  refine ⟨passed, last, hcourse, hphase, hfinish, fun seed hseed => ?_⟩
  have haccounts := hcourse.reachable.accounts
  obtain ⟨entry, hentry, hkey, -⟩ :=
    ((haccounts.offered seed hseed).represents hdeferred).exists_entry haccounts.wellFormed
  rw [hstore]
  refine ⟨entry, hentry, hkey, ?_⟩
  rcases hcourse.seed_origin_cases hseed hentry hkey with
    hseeded | ⟨name, source, horigin, hsource, run, hrun, hawaits, hyields⟩
  · exact .inl hseeded
  · obtain ⟨before, hbefore, -⟩ := hcourse.of_mem hrun
    exact .inr ⟨name, source, horigin, hsource, hbefore.start_awaits hseed hawaits, run, hrun,
      hawaits, hyields⟩

/-! ## A mailroom -/

namespace Mailroom

/-- A person, by number. -/
def person (n : Int64) : Concept :=
  { kind := "P", fields := [.int n] }

/-- A letter to a person. -/
def letter (n : Int64) : Concept :=
  { kind := "L", fields := [(person n).reference] }

/-- Whoever comes finds a second person and writes to them. -/
def find : Rule where
  name := "find"
  expand _ _ := .ok [person 2, letter 2]

/-- Persons and letters to them. -/
def registry : Registry where
  schema := .ofKinds [{ name := "L", keyFields := ["to"] }, { name := "P", keyFields := ["n"] }]
  rules := .ofList [("P", [find])]

/-- A letter to someone who has not been found yet, and the person who will. -/
def seeds : List Concept :=
  [letter 2, person 1]

/-- The letter was given first, but it is stored as one that the rule has produced, and
exported so. -/
theorem letter_not_seeded : ∃ model, registry.expand {} seeds = .ok model ∧
    letter 2 ∈ seeds ∧
    ∃ entry ∈ model.store.entries, entry.key = (letter 2).key ∧ entry.origin.isSeed = false ∧
      entry.origin.toExport ≠ .text "Seed" := by
  obtain ⟨model, hmodel, hcheck⟩ := Run.exists_model_of_after registry {} seeds 5
    (fun store => store.entries.any fun entry =>
      entry.key = (letter 2).key ∧ entry.origin = .rule "find" (person 1).key) (by cbv)
  obtain ⟨entry, hentry, hsays⟩ := Array.any_eq_true'.1 hcheck
  obtain ⟨hkey, horigin⟩ := of_decide_eq_true hsays
  refine ⟨model, hmodel, List.mem_cons_self, entry, hentry, hkey, ?_, ?_⟩
  · rw [horigin]
    rfl
  · rw [horigin]
    intro hexport
    cases hexport

/-- The person who was given could be stored at once and is a seed; the letter had to
wait, and the rule was faster. -/
theorem expand_mailroom : ∃ (model : Model) (passed : List Run),
    registry.expand {} seeds = .ok model ∧
    (∃ entry ∈ model.store.entries, entry.key = (person 1).key ∧ entry.origin = .seed 1) ∧
    ∃ entry ∈ model.store.entries, entry.key = (letter 2).key ∧
      ∃ run ∈ passed, run.Awaits (letter 2) ∧
        ∃ source, Run.Yields registry run "find" source entry := by
  obtain ⟨model, hmodel, hcheck⟩ := Run.exists_model_of_after registry {} seeds 5
    (fun store => (store.entries.any fun entry =>
        entry.key = (person 1).key ∧ entry.origin = .seed 1) &&
      store.entries.all fun entry =>
        entry.key ≠ (letter 2).key ∨ entry.origin = .rule "find" (person 1).key) (by cbv)
  obtain ⟨hperson, hletter⟩ := Bool.and_eq_true_iff.1 hcheck
  obtain ⟨first, hfirst, hsays⟩ := Array.any_eq_true'.1 hperson
  obtain ⟨passed, last, -, -, -, hseeds⟩ := expand_seed_origin hmodel
  obtain ⟨entry, hentry, hkey, horigin⟩ := hseeds (letter 2) List.mem_cons_self
  have hfound : entry.origin = .rule "find" (person 1).key :=
    (of_decide_eq_true (Array.all_eq_true'.1 hletter entry hentry)).resolve_left (not_not_intro hkey)
  refine ⟨model, passed, hmodel, ⟨first, hfirst, of_decide_eq_true hsays⟩, entry, hentry, hkey, ?_⟩
  rcases horigin with ⟨position, given, hseed, -⟩ | ⟨name, source, hrule, -, -, run, hrun, hawaits,
    hyields⟩
  · cases hseed.symm.trans hfound
  · obtain ⟨rfl, -⟩ := Origin.rule.inj (hrule.symm.trans hfound)
    exact ⟨run, hrun, hawaits, source, hyields⟩

end Mailroom

end ConceptExpansion
