/-
# What an expansion means

If the answers of all rules are determined by keys and by attributes that never
grow, then an expansion has a meaning that mentions no waves, no waiting offers
and no merging. `Derived` is the least set of concepts that contains the seeds
and whatever the rules of a derived concept's kind answer about it. A model has
the keys of the derived concepts, and under each key it says what the derived
concepts with that key say, with the cumulative attributes taken together.

The rules must not look at cumulative attributes: a concept is expanded once,
and what is merged into it later is not expanded again.
-/

import ConceptExpansion.Proofs.Run.Spanning

namespace ConceptExpansion

/-! ## Derived concepts -/

/-- About concepts of the kind, the answer of the rule depends only on the key and
on the attributes that are not cumulative. -/
def Rule.IsDetermined (schema : Schema) (kind : String) (rule : Rule) : Prop :=
  ∀ (a b : Concept) (store store' : Store), a.kind = kind → a.key = b.key →
    (∀ name, schema.isCumulative kind name = false → a.attribute? name = b.attribute? name) →
      rule.expand a store = rule.expand b store'

/-- All rules of the registry are determined. -/
def Registry.IsDetermined (registry : Registry) : Prop :=
  ∀ kind, ∀ rule ∈ registry.rulesFor kind, rule.IsDetermined registry.schema kind

/-- The least set of concepts that contains the seeds and is closed under the
rules. -/
inductive Derived (registry : Registry) (seeds : List Concept) : Concept → Prop
  | seed {seed : Concept} (hseed : seed ∈ seeds) : Derived registry seeds seed
  | product {source product : Concept} {rule : Rule} {store : Store} {products : List Concept}
      (hsource : Derived registry seeds source) (hrule : rule ∈ registry.rulesFor source.kind)
      (hexpand : rule.expand source store = .ok products) (hproduct : product ∈ products) :
      Derived registry seeds product

/-- Under every key the model says exactly what the concepts of the set with that
key say. -/
structure Model.Describes (schema : Schema) (concepts : Concept → Prop) (model : Model) :
    Prop where
  keys : ∀ key, key ∈ model.keys ↔ ∃ concept, concepts concept ∧ concept.key = key
  concept_key : ∀ entry ∈ model.store.entries, entry.concept.key = entry.key
  plain : ∀ entry ∈ model.store.entries, ∀ concept, concepts concept → concept.key = entry.key →
    ∀ name, schema.isCumulative entry.key.kind name = false →
      entry.concept.attribute? name = concept.attribute? name
  present : ∀ entry ∈ model.store.entries, ∀ name,
    schema.isCumulative entry.key.kind name = true →
      ((entry.concept.attribute? name).isSome ↔
        ∃ concept, concepts concept ∧ concept.key = entry.key ∧
          (concept.attribute? name).isSome)
  items : ∀ entry ∈ model.store.entries, ∀ name,
    schema.isCumulative entry.key.kind name = true →
      ∀ value ∈ entry.concept.attribute? name, ∃ items, value = .list items ∧
        Value.Ascending items ∧
        ∀ x, x ∈ items ↔ ∃ concept, concepts concept ∧ concept.key = entry.key ∧
          x ∈ Value.contributed (concept.attribute? name)

section Meaning

variable {registry : Registry} {settings : Settings} {seeds : List Concept}

/-- Nothing underivable appears: derived concepts span every state of a run. -/
theorem Derived.closed (hdetermined : registry.IsDetermined) :
    Run.Closed registry seeds (Derived registry seeds) where
  seed _ hseed := .seed hseed
  product {store entry rule products} hschema hspanned hrule hexpand product hproduct := by
    obtain ⟨source, hsource, hkey, hplain⟩ := hspanned.plain
    have hkind : source.kind = entry.concept.kind := congrArg Key.kind hkey
    rw [hschema] at hplain
    have hsame : rule.expand source store = rule.expand entry.concept store :=
      hdetermined _ rule hrule _ _ store store hkind hkey hplain
    exact .product hsource (hkind ▸ hrule) (hsame.trans hexpand) hproduct

/-- Nothing derivable is missed: a settled run in which no offer waits represents
every derived concept. -/
theorem Derived.represents (hdetermined : registry.IsDetermined) {last : Run}
    (hlast : Run.Reachable registry settings seeds last) (hphase : last.phase = .settled)
    (hdeferred : last.deferred = []) {concept : Concept} (h : Derived registry seeds concept) :
    last.store.Represents concept := by
  have haccounts := hlast.accounts
  induction h with
  | seed hseed => exact (haccounts.offered _ hseed).represents hdeferred
  | @product source product rule store products hsource hrule hexpand hproduct ih =>
      obtain ⟨entry, hfind, hwithin⟩ := ih
      obtain ⟨hget, -⟩ := haccounts.wellFormed.find?_eq_some_iff.1 hfind
      obtain ⟨before, earlier, -, -, -, -, -, -, hwithin', hrules⟩ :=
        (haccounts.expanded_of_settled hphase hget).exists_earlier hget
      rw [haccounts.schema] at hwithin
      have hkey : source.key = earlier.concept.key := hwithin.key.trans hwithin'.key.symm
      have hkind : source.kind = earlier.concept.kind := congrArg Key.kind hkey
      have hplain : ∀ name, registry.schema.isCumulative source.kind name = false →
          source.attribute? name = earlier.concept.attribute? name := fun name hname =>
        (hwithin.plain name hname).trans (hwithin'.plain name (hkind ▸ hname)).symm
      obtain ⟨products', hproducts', hheld⟩ := hrules rule (hwithin.kind ▸ hrule)
      have hsame : rule.expand source store = rule.expand earlier.concept before.store :=
        hdetermined _ rule hrule _ _ store before.store rfl hkey hplain
      obtain rfl : products = products' :=
        Except.ok.inj (hexpand.symm.trans (hsame.trans hproducts'))
      exact (hheld product hproduct).represents hdeferred

section Describes

variable {concepts : Concept → Prop} {store : Store}

/-- A set that spans a store which represents it has the keys of the store. -/
theorem Store.mem_keys_iff_of_spannedBy (hstore : store.WellFormed)
    (hspanned : store.SpannedBy concepts)
    (hrepresents : ∀ {concept : Concept}, concepts concept → store.Represents concept)
    {key : Key} : key ∈ store.keys ↔ ∃ concept, concepts concept ∧ concept.key = key := by
  constructor
  · exact hspanned.exists_of_mem_keys hstore
  · rintro ⟨concept, hconcept, rfl⟩
    obtain ⟨entry, hfind, -⟩ := hrepresents hconcept
    exact hstore.mem_keys.2 ⟨entry, hfind⟩

/-- A model says exactly what the concepts of a set say if the set spans the store
and the store represents the set. -/
theorem Model.describes_of_spannedBy {model : Model} (hstore : model.store.WellFormed)
    (hspanned : model.store.SpannedBy concepts)
    (hrepresents : ∀ {concept : Concept}, concepts concept → model.store.Represents concept) :
    model.Describes model.store.schema concepts := by
  have hkind : ∀ {entry : Entry}, entry ∈ model.store.entries →
      entry.concept.kind = entry.key.kind := fun hentry =>
    congrArg Key.kind (hstore.concept_key_of_mem hentry)
  have hspans : ∀ {entry : Entry}, entry ∈ model.store.entries →
      model.store.schema.SpannedBy concepts entry.concept :=
    fun hentry => hspanned _ _ (hstore.get?_of_mem hentry)
  have hwithin : ∀ {entry : Entry} {concept : Concept}, entry ∈ model.store.entries →
      concepts concept → concept.key = entry.key →
        model.store.schema.Within concept entry.concept :=
    fun hentry hconcept hsame => (hrepresents hconcept).within hstore hentry hsame
  exact
    { keys := fun _ => Store.mem_keys_iff_of_spannedBy hstore hspanned hrepresents
      concept_key := fun _ hentry => hstore.concept_key_of_mem hentry
      plain := by
        intro entry hentry concept hconcept hsame name hname
        have hle := hwithin hentry hconcept hsame
        rw [← hkind hentry, ← hle.kind] at hname
        exact (hle.plain name hname).symm
      present := by
        intro entry hentry name hname
        rw [← hkind hentry] at hname
        rw [← hstore.concept_key_of_mem hentry]
        constructor
        · exact (hspans hentry).present name hname
        · rintro ⟨concept, hconcept, hsame, hsome⟩
          have hle := hwithin hentry hconcept (hsame.trans (hstore.concept_key_of_mem hentry))
          exact hle.present name (hle.kind ▸ hname) hsome
      items := by
        intro entry hentry name hname value hvalue
        rw [← hkind hentry] at hname
        obtain ⟨items, rfl, hascending⟩ :=
          hstore.isSet_of_cumulative (hstore.get?_of_mem hentry) hname hvalue
        have hitems : Value.contributed (entry.concept.attribute? name) = items := by
          rw [hvalue]
          rfl
        refine ⟨items, rfl, hascending, ?_⟩
        intro x
        rw [← hitems, ← hstore.concept_key_of_mem hentry]
        constructor
        · exact (hspans hentry).items name hname x
        · rintro ⟨concept, hconcept, hsame, hx⟩
          have hle := hwithin hentry hconcept (hsame.trans (hstore.concept_key_of_mem hentry))
          exact hle.items name (hle.kind ▸ hname) x hx }

end Describes

/-- If all rules are determined by keys and by attributes that never grow, a model
says exactly what the derived concepts say. -/
theorem expand_describes_derived (hdetermined : registry.IsDetermined) {model : Model}
    (h : registry.expand settings seeds = .ok model) :
    model.Describes registry.schema (Derived registry seeds) := by
  obtain ⟨last, hlast, hphase, hdeferred, hstore⟩ := Run.reachable_of_expand h
  have hspanned := hlast.spannedBy (Derived.closed hdetermined)
  rw [← hlast.accounts.schema, ← hstore]
  apply Model.describes_of_spannedBy
  · rw [hstore]
    exact hspanned.wellFormed
  · rw [hstore]
    exact hspanned.stored
  · intro concept hconcept
    rw [hstore]
    exact hconcept.represents hdetermined hlast hphase hdeferred

end Meaning

/-! ## A census -/

namespace Census

/-- A person is counted. -/
def count : Rule where
  name := "count"
  expand concept _ :=
    .ok [{ kind := "C", payload := .ofList [("counted", .list concept.fields)] }]

/-- A census finds one more person. -/
def find : Rule where
  name := "find"
  expand _ _ := .ok [{ kind := "P", fields := [.int 2] }]

/-- Persons, the census that counts them, and letters to them. -/
def registry : Registry where
  schema := .ofKinds
    [{ name := "C", cumulative := .ofNames ["counted"] }, { name := "L", keyFields := ["to"] },
      { name := "P", keyFields := ["n"] }]
  rules := .ofList [("C", [find]), ("P", [count])]

/-- A person, and a letter to one who has not been found yet. -/
def seeds : List Concept :=
  [{ kind := "L", fields := [.ref "P" [.int 2]] }, { kind := "P", fields := [.int 1] }]

/-- The census once everyone has been counted. -/
def complete : Concept :=
  { kind := "C", payload := .ofList [("counted", .list [.int 1, .int 2])] }

theorem isDetermined : registry.IsDetermined := by
  intro kind rule hrule a b store store' _ hkey _
  obtain ⟨rules, hrules, hrule⟩ := Run.mem_rulesFor_iff.1 hrule
  have hentries : registry.rules.entries = [("C", [find]), ("P", [count])] := by cbv
  rw [hentries] at hrules
  rcases List.mem_cons.1 hrules with h | h
  · cases h
    rw [List.mem_singleton.1 hrule]
    rfl
  · cases List.mem_singleton.1 h
    rw [List.mem_singleton.1 hrule]
    have hfields : a.fields = b.fields := congrArg Key.fields hkey
    simp only [count, hfields]

/-- The letter waits, a person is found and the census grows after it has been
expanded, and the model says what the derived concepts say. -/
theorem expand_describes : ∃ model, registry.expand {} seeds = .ok model ∧
    (∃ entry ∈ model.store.entries, entry.concept = complete) ∧
    model.Describes registry.schema (Derived registry seeds) := by
  obtain ⟨model, hmodel, hentry⟩ :=
    Run.exists_entry_of_after registry {} seeds 5 complete (by cbv)
  exact ⟨model, hmodel, hentry, expand_describes_derived isDetermined hmodel⟩

end Census

end ConceptExpansion
