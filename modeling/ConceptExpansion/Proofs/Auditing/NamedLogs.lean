/-
# Which log a wish extends

A wish to audit everything names a log, and its rule adds the properties of the entity that
the first key field of the named log refers to. The rule builds the key of the log anew from
that entity. The two keys are one exactly if the named key is of the kind of entity logs and
has a single field, as the key of every stored log has. The rule itself asks for neither: a
wish that names a key of another kind with a reference in front is granted all the same, and
it extends the log of the entity referred to.
-/

import ConceptExpansion.Proofs.Auditing.Outcome
import ConceptExpansion.Proofs.Store.Views

namespace ConceptExpansion

namespace Auditing

variable {store : Store} {concept : Concept} {log entity : Key} {failure : RuleFailure}
  {products : List Concept}

/-- Why the rule refuses a wish to audit everything: it names no log, or what it names has no
reference in front. -/
inductive Refused (concept : Concept) : RuleFailure → Prop
  | missing (h : concept.field? 0 = none) : Refused concept (.missingField "logging")
  | noReference {value : Value} (h : concept.field? 0 = some value)
      (hvalue : ∀ key : Key, value ≠ key.toValue) :
      Refused concept (.unexpected "logging" "a reference" value)
  | ofNothing {log : Key} (h : concept.field? 0 = some log.toValue)
      (hlog : ∀ entity : Key, log.fields.head? ≠ some entity.toValue) :
      Refused concept (.unexpected "logging" "an entity log" log.toValue)

/-- A wish is either refused or names a log of some entity. -/
theorem refused_or_wishes (concept : Concept) :
    (∃ failure, Refused concept failure) ∨ ∃ entity, Wishes concept entity := by
  cases hfield : concept.field? 0 with
  | none => exact .inl ⟨_, .missing hfield⟩
  | some value =>
      by_cases hvalue : ∃ log : Key, value = log.toValue
      · obtain ⟨log, rfl⟩ := hvalue
        by_cases hlog : ∃ entity : Key, log.fields.head? = some entity.toValue
        · obtain ⟨entity, hentity⟩ := hlog
          exact .inr ⟨entity, log, hfield, hentity⟩
        · exact .inl ⟨_, .ofNothing hfield (not_exists.1 hlog)⟩
      · exact .inl ⟨_, .noReference hfield (not_exists.1 hvalue)⟩

theorem Refused.expand_eq (h : Refused concept failure) :
    allPropertiesLoggingRule.expand concept store = .error failure := by
  cases h with
  | missing h => exact bind_of_eq_error (Rule.refField_eq_error_iff.2 (.inl ⟨h, rfl⟩)) _
  | noReference h hvalue =>
      exact bind_of_eq_error (Rule.refField_eq_error_iff.2 (.inr ⟨_, h, hvalue, rfl⟩)) _
  | @ofNothing log h hlog =>
      have hnone : log.fields.head?.bind Value.key? = none := by
        simp only [Option.eq_none_iff_forall_ne_some, ne_eq, Option.bind_eq_some_iff,
          Value.key?_eq_some_iff, exists_eq_right]
        exact hlog
      refine (bind_of_eq_ok (Rule.refField_eq_ok_iff.2 h) _).trans ?_
      rw [hnone]

theorem allPropertiesLoggingRule_expand_eq_error_iff :
    allPropertiesLoggingRule.expand concept store = .error failure ↔
      Refused concept failure := by
  refine ⟨fun h => ?_, Refused.expand_eq⟩
  obtain ⟨reported, hrefused⟩ | ⟨entity, hwishes⟩ := refused_or_wishes concept
  · obtain rfl := Except.error.inj (hrefused.expand_eq.symm.trans h)
    exact hrefused
  · have hgranted : allPropertiesLoggingRule.expand concept store =
        .ok (auditing entity (store.withFirstField propertyKind entity)) :=
      allPropertiesLoggingRule_expand_eq_ok_iff.2 ⟨entity, hwishes, rfl⟩
    cases hgranted.symm.trans h

/-! ## Keys of logs -/

/-- A log is named by the entity alone. -/
theorem key_entityLogging_eq_iff (hentity : log.fields.head? = some entity.toValue) :
    (entityLogging entity).key = log ↔ log.kind = entityLoggingKind ∧ log.fields.length = 1 := by
  obtain ⟨kind, fields⟩ := log
  constructor
  · intro h
    cases h
    exact ⟨rfl, rfl⟩
  · rintro ⟨rfl, hlength⟩
    obtain ⟨first, rfl⟩ := List.length_eq_one_iff.1 hlength
    cases hentity
    rfl

/-- The keys of stored logs have a single field. -/
theorem length_fields_of_contains (hstore : store.WellFormed)
    (hschema : store.schema = standard.schema) (hkind : log.kind = entityLoggingKind)
    (h : store.contains log = true) : log.fields.length = 1 := by
  obtain ⟨entry, hentry, rfl⟩ := hstore.contains_iff_mem.1 h
  have hget := hstore.get?_of_mem hentry
  obtain ⟨declared, hvalid, -⟩ := hstore.valid hget
  have hkey := hstore.concept_key hget
  have hdeclared : standard.schema.get? entityLoggingKind = some declared := by
    rw [← hkind, ← hkey, ← hschema]
    exact Schema.get?_of_validate hvalid
  have harity : (standard.schema.get? entityLoggingKind).map KindDef.arity = some 1 := by decide
  rw [hdeclared, Option.map_some, Schema.arity_of_validate hvalid] at harity
  rw [← hkey]
  exact Option.some.inj harity

/-- The log that a stored concept names in a key field is stored. -/
theorem contains_of_field (hstore : store.WellFormed) (hschema : store.schema = standard.schema)
    (hconcept : store.contains concept.key = true) (hlog : concept.field? 0 = some log.toValue)
    (hkind : log.kind = entityLoggingKind) : store.contains log = true := by
  obtain ⟨entry, hentry, hkey⟩ := hstore.contains_iff_mem.1 hconcept
  have hmentions : entry.key.Mentions log := by
    rw [hkey]
    exact ⟨log.toValue, List.mem_of_getElem? hlog, Value.mentions_toValue_iff.2 rfl⟩
  have hresolvable := hstore.resolvable_of_mentions (hstore.get?_of_mem hentry) hmentions
  rw [Store.resolvable, hschema, hkind, Bool.or_eq_true] at hresolvable
  exact hresolvable.resolve_right (by decide)

/-- What comes of a wish to audit everything. The rule refuses it if it names no log, or if
what it names has no reference in front. Otherwise all that it returns has the key of the log
of the entity referred to. That is the key the wish names exactly if this is of the kind of
entity logs and has one field; so it is if the named key is of that kind and either the named
log or the wish itself is stored. -/
theorem granted_wish (hreachable : store.Reachable) (hschema : store.schema = standard.schema)
    (concept : Concept) :
    (∀ failure, allPropertiesLoggingRule.expand concept store = .error failure ↔
      Refused concept failure) ∧
    ∀ products, allPropertiesLoggingRule.expand concept store = .ok products →
      ∃ log entity : Key, concept.field? 0 = some log.toValue ∧
        log.fields.head? = some entity.toValue ∧
        ∀ product ∈ products, product.key = (entityLogging entity).key ∧
          (product.key = log ↔ log.kind = entityLoggingKind ∧ log.fields.length = 1) ∧
          (log.kind = entityLoggingKind →
            store.contains log = true ∨ store.contains concept.key = true →
              product.key = log) := by
  have hstore := hreachable.wellFormed
  refine ⟨fun failure => allPropertiesLoggingRule_expand_eq_error_iff, fun products h => ?_⟩
  obtain ⟨entity, ⟨log, hlog, hentity⟩, rfl⟩ := allPropertiesLoggingRule_expand_eq_ok_iff.1 h
  refine ⟨log, entity, hlog, hentity, fun product hproduct => ?_⟩
  obtain ⟨-, rfl⟩ := mem_auditing.1 hproduct
  have hiff := key_entityLogging_eq_iff hentity
  refine ⟨rfl, hiff, fun hkind hstored => hiff.2 ⟨hkind, ?_⟩⟩
  have hcontains : store.contains log = true :=
    hstored.elim id fun hconcept => contains_of_field hstore hschema hconcept hlog hkind
  exact length_fields_of_contains hstore hschema hkind hcontains

end Auditing

/-! ## A wish that names no log -/

namespace Auditing.Misnamed

/-- The books. -/
def book : Concept :=
  entity "Shop" "Book"

/-- Their title. -/
def title : Concept :=
  property book.key "Title" "String"

/-- A wish that names the log of the books. -/
def wish : Concept :=
  allPropertiesLogging (entityLogging book.key).key

/-- A wish that names the monitoring of the books in place of their log. -/
def slip : Concept :=
  allPropertiesLogging (monitored book.key).key

/-- A shop in which both wishes are stored, and a title that there is to audit. -/
def shop : Store :=
  ((Store.empty standard.schema).insertAll
    [(book, .seed 0), (title, .seed 1), (entityLogging book.key, .seed 2),
      (monitored book.key, .seed 3), (wish, .seed 4), (slip, .seed 5)]).2

theorem shop_reachable : shop.Reachable :=
  (Store.Reachable.empty standard.schema).insertAll _

theorem shop_schema : shop.schema = standard.schema := by
  decide +kernel

/-- Whoever wishes for the books is granted their log. -/
theorem granted_of_wishes {concept : Concept} (h : Wishes concept book.key) : ∃ product,
    allPropertiesLoggingRule.expand concept shop = .ok [product] ∧
      product.key = (entityLogging book.key).key := by
  have htitle : (shop.withFirstField propertyKind book.key).length = 1 := by
    cbv
  obtain ⟨entry, hentry⟩ := List.length_eq_one_iff.1 htitle
  refine ⟨logOf book.key [entry], ?_, rfl⟩
  rw [allPropertiesLoggingRule_expand_eq_ok_iff]
  exact ⟨book.key, h, by rw [hentry]; rfl⟩

/-- The first wish extends the log that it names. -/
theorem wish_granted : ∃ product,
    allPropertiesLoggingRule.expand wish shop = .ok [product] ∧
      product.key = (entityLogging book.key).key := by
  have hstored : shop.contains wish.key = true := by
    cbv
  have hwishes : Wishes wish book.key := ⟨(entityLogging book.key).key, rfl, rfl⟩
  obtain ⟨product, hanswer, -⟩ := granted_of_wishes hwishes
  obtain ⟨-, hgranted⟩ := granted_wish shop_reachable shop_schema wish
  obtain ⟨log, _, hlog, -, hproducts⟩ := hgranted _ hanswer
  obtain ⟨-, -, hnamed⟩ := hproducts product (List.mem_singleton.2 rfl)
  obtain rfl : (entityLogging book.key).key = log := Key.toValue_injective (Option.some.inj hlog)
  exact ⟨product, hanswer, hnamed rfl (.inr hstored)⟩

/-- The second wish names no log, is granted all the same, and extends the log of the books. -/
theorem slip_granted : shop.Reachable ∧ shop.schema = standard.schema ∧
    shop.contains slip.key = true ∧
    slip.field? 0 = some (monitored book.key).key.toValue ∧
    (monitored book.key).key.kind ≠ entityLoggingKind ∧
    ∃ product, allPropertiesLoggingRule.expand slip shop = .ok [product] ∧
      product.key = (entityLogging book.key).key ∧ product.key ≠ (monitored book.key).key := by
  have hstored : shop.contains slip.key = true := by
    cbv
  have hother : (entityLogging book.key).key ≠ (monitored book.key).key := by
    decide
  have hwishes : Wishes slip book.key := ⟨(monitored book.key).key, rfl, rfl⟩
  obtain ⟨product, hanswer, hkey⟩ := granted_of_wishes hwishes
  exact ⟨shop_reachable, shop_schema, hstored, rfl, by decide, product, hanswer, hkey,
    hkey ▸ hother⟩

end Auditing.Misnamed

end ConceptExpansion
