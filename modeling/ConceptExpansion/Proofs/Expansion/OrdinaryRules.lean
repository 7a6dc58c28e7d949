/-
# What ordinary rules have been asked

A concept is expanded once, in the wave after its admission, as it stands then.
An expansion that succeeds holds every answer that its ordinary rules gave in
that wave. Cumulative attributes may still grow later, and nothing asks an
ordinary rule again, so the answer on the final payload need not be part of the
model. It is whenever the rule answers alike on both, as a rule does that reads
no cumulative attribute.
-/

import ConceptExpansion.Proofs.Run.Reachable

namespace ConceptExpansion

/-- The answer of the rule depends on the concept alone. -/
def Rule.IgnoresStore (rule : Rule) : Prop :=
  ∀ (concept : Concept) (store store' : Store),
    rule.expand concept store = rule.expand concept store'

/-! ## A late merge is not expanded -/

namespace Feedback

/-- An item for every value that the list holds. -/
def spread : Rule where
  name := "spread"
  expand concept _ :=
    .ok ((Value.contributed (concept.attribute? "items")).map fun item =>
      { kind := "I", fields := [item] })

/-- An addition to the list, whatever the item. -/
def report : Rule where
  name := "report"
  expand _ _ := .ok [{ kind := "L", payload := .ofList [("items", .int 2)] }]

/-- Lists, which are spread into items, and items, which report back to the
list. -/
def registry : Registry where
  schema := .ofKinds
    [{ name := "L", cumulative := .ofNames ["items"] }, { name := "I", keyFields := ["n"] }]
  rules := .ofList [("L", [spread]), ("I", [report])]

/-- The list of one value. -/
def seeds : List Concept :=
  [{ kind := "L", payload := .ofList [("items", .int 1)] }]

/-- The list once the item of the first value has reported back. -/
def grown : Concept :=
  { kind := "L", payload := .ofList [("items", .list [.int 1, .int 2])] }

theorem ignoresStore {kind : String} {rule : Rule} (hrule : rule ∈ registry.rulesFor kind) :
    rule.IgnoresStore := by
  obtain ⟨rules, hrules, hrule⟩ := Run.mem_rulesFor_iff.1 hrule
  have hentries : registry.rules.entries = [("I", [report]), ("L", [spread])] := by cbv
  rw [hentries] at hrules
  intro concept store store'
  rcases List.mem_cons.1 hrules with h | h
  · cases h
    rw [List.mem_singleton.1 hrule]
    rfl
  · cases List.mem_singleton.1 h
    rw [List.mem_singleton.1 hrule]
    rfl

/-- The value that the item reports joins the list after the list was spread, and
no item is made for it. So a model need not hold what its ordinary rules produce
from its concepts, though they ignore the store. -/
theorem spread_not_fixed :
    (∀ kind, ∀ rule ∈ registry.rulesFor kind, rule.readsModel = false → rule.IgnoresStore) ∧
    ∃ model, registry.expand {} seeds = .ok model ∧
      ∃ entry ∈ model.store.entries, entry.concept = grown ∧
        spread ∈ registry.rulesFor entry.concept.kind ∧ spread.readsModel = false ∧
        ∃ products, spread.expand entry.concept model.store = .ok products ∧
          ∃ product ∈ products, model.store.find? product.key = none := by
  refine ⟨fun kind rule hrule _ => ignoresStore hrule, ?_⟩
  obtain ⟨model, hmodel, hcheck⟩ := Run.exists_model_of_after registry {} seeds 4
    (fun store => store.entries.any (fun entry => entry.concept = grown) &&
      (store.find? ⟨"I", [.int 2]⟩).isNone) (by cbv)
  obtain ⟨hgrown, hmissing⟩ := Bool.and_eq_true_iff.1 hcheck
  obtain ⟨entry, hentry, hconcept⟩ := Array.any_eq_true'.1 hgrown
  have hconcept : entry.concept = grown := of_decide_eq_true hconcept
  have hrule : spread ∈ registry.rulesFor entry.concept.kind := by
    rw [hconcept]
    exact List.mem_singleton.2 rfl
  have hproducts : spread.expand grown model.store =
      .ok [{ kind := "I", fields := [.int 1] }, { kind := "I", fields := [.int 2] }] := rfl
  refine ⟨model, hmodel, entry, hentry, hconcept, hrule, rfl, _, hconcept ▸ hproducts, ?_⟩
  exact ⟨{ kind := "I", fields := [.int 2] }, by simp, Option.isNone_iff_eq_none.1 hmissing⟩

end Feedback

/-! ## What was stored in its wave is expanded -/

/-- In a model every concept has been expanded as it stood in some wave: as a
description with the same key, origin and attributes, whose cumulative attributes
lie within those of the model. Every ordinary rule succeeds on that description,
the model holds what it produces, and so it does for the concept itself wherever
the rule answers alike on both. -/
theorem ordinaryRule_fixed_in_wave {registry : Registry} {settings : Settings}
    {seeds : List Concept} {model : Model}
    (hpure : ∀ kind, ∀ rule ∈ registry.rulesFor kind,
      rule.readsModel = false → rule.IgnoresStore)
    (h : registry.expand settings seeds = .ok model)
    {entry : Entry} (hentry : entry ∈ model.store.entries) :
    ∃ before earlier, Run.Reachable registry settings seeds before ∧
      before.phase = .expanding ∧ entry.id ∈ before.wave ∧
      before.store.get? entry.id = some earlier ∧
      earlier.key = entry.key ∧ earlier.origin = entry.origin ∧
      registry.schema.Within earlier.concept entry.concept ∧
      ∀ rule ∈ registry.rulesFor entry.concept.kind, rule.readsModel = false →
        ∃ products, (∀ store, rule.expand earlier.concept store = .ok products) ∧
          model.store.Absorbs products ∧
          (rule.expand entry.concept model.store = rule.expand earlier.concept model.store →
            rule.expand entry.concept model.store = .ok products) := by
  obtain ⟨last, hlast, hphase, hdeferred, hstore⟩ := Run.reachable_of_expand h
  rw [hstore] at hentry ⊢
  have haccounts := hlast.accounts
  have hget := haccounts.wellFormed.get?_of_mem hentry
  obtain ⟨before, earlier, hbefore, hexpanding, hwave, hearlier, hkey, horigin, hwithin,
    hrules⟩ := (haccounts.expanded_of_settled hphase hget).exists_earlier hget
  refine ⟨before, earlier, hbefore, hexpanding, hwave, hearlier, hkey, horigin, hwithin,
    fun rule hrule hordinary => ?_⟩
  obtain ⟨products, hproducts, hheld⟩ := hrules rule hrule
  have hanswer : ∀ store, rule.expand earlier.concept store = .ok products := fun store =>
    (hpure _ rule hrule hordinary earlier.concept store before.store).trans hproducts
  refine ⟨products, hanswer, ?_, fun halike => halike.trans (hanswer last.store)⟩
  apply Store.absorbs_of_represents haccounts.wellFormed
  intro product hproduct
  exact (hheld product hproduct).represents hdeferred

/-- The list of the feedback was spread as it stood in its wave, and the model
holds the items of that description. -/
theorem Feedback.spread_fixed_in_wave :
    ∃ model, registry.expand {} seeds = .ok model ∧
      ∃ entry ∈ model.store.entries, entry.concept = grown ∧
        ∃ earlier, registry.schema.Within earlier grown ∧
          ∃ products, (∀ store, spread.expand earlier store = .ok products) ∧
            model.store.Absorbs products := by
  obtain ⟨model, hmodel, entry, hentry, hconcept⟩ :=
    Run.exists_entry_of_after registry {} seeds 4 grown (by cbv)
  obtain ⟨-, earlier, -, -, -, -, -, -, hwithin, hrules⟩ :=
    ordinaryRule_fixed_in_wave (fun _ _ hrule _ => ignoresStore hrule) hmodel hentry
  rw [hconcept] at hwithin hrules
  obtain ⟨products, hproducts, habsorbs, -⟩ := hrules spread (List.mem_singleton.2 rfl) rfl
  exact ⟨model, hmodel, entry, hentry, hconcept, earlier.concept, hwithin, products, hproducts,
    habsorbs⟩

end ConceptExpansion
