/-
# What the rules of audited domain models answer

The vocabulary and its rules make up one registry. Each of the three rules is described
here by what it answers: which concept it can be asked about, and which concepts it
produces then. A wish to audit everything is the only one whose answer depends on the
store, and there it depends on the properties of one entity.
-/

import ConceptExpansion.Auditing.Rules
import ConceptExpansion.Proofs.Store.Ranges
import ConceptExpansion.Run.Failure

namespace ConceptExpansion

/-- A declared kind is one of those that the schema was made of. -/
theorem Schema.mem_of_get?_ofKinds {kinds : List KindDef} {name : String} {kind : KindDef}
    (h : (ofKinds kinds).get? name = some kind) : kind ∈ kinds ∧ kind.name = name := by
  have hfold : ∀ (kinds : List KindDef) (schema : Schema),
      (kinds.foldl declare schema).get? name = some kind →
        (kind ∈ kinds ∧ kind.name = name) ∨ schema.get? name = some kind := by
    intro kinds
    induction kinds with
    | nil => exact fun schema h => .inr h
    | cons first rest ih =>
        intro schema h
        obtain ⟨hmem, hname⟩ | h := ih (schema.declare first) h
        · exact .inl ⟨List.mem_cons_of_mem _ hmem, hname⟩
        · rw [get?, declare, NameMap.get?_insert] at h
          split at h
          · next hname =>
              obtain rfl := Option.some.inj h
              exact .inl ⟨List.mem_cons_self, hname.symm⟩
          · exact .inr h
  obtain h | h := hfold kinds {} h
  · exact h
  · cases h

/-- A value has the key of which it is the reference, and no other. -/
theorem Value.key?_eq_some_iff {value : Value} {key : Key} :
    value.key? = some key ↔ value = key.toValue := by
  cases key
  cases value <;> simp [Value.key?, Key.toValue]

/-- A rule gets at a reference exactly if the field holds one. -/
theorem Rule.refField_eq_ok_iff {concept : Concept} {position : Nat} {name : String}
    {key : Key} :
    Rule.refField concept position name = .ok key ↔
      concept.field? position = some key.toValue := by
  unfold refField
  cases concept.field? position with
  | none => simp
  | some value =>
      rw [Option.some.injEq, ← Value.key?_eq_some_iff]
      dsimp only
      split <;> simp [*]

/-- A reference is missed where the field is absent and where it holds something else. -/
theorem Rule.refField_eq_error_iff {concept : Concept} {position : Nat} {name : String}
    {failure : RuleFailure} :
    Rule.refField concept position name = .error failure ↔
      concept.field? position = none ∧ failure = .missingField name ∨
        ∃ value, concept.field? position = some value ∧ (∀ key : Key, value ≠ key.toValue) ∧
          failure = .unexpected name "a reference" value := by
  unfold refField
  cases concept.field? position with
  | none => simp [eq_comm]
  | some value =>
      have hnone : value.key? = none ↔ ∀ key : Key, value ≠ key.toValue := by
        simp only [Option.eq_none_iff_forall_ne_some, ne_eq, Value.key?_eq_some_iff]
      dsimp only
      split
      · next key hkey =>
          have hvalue : value = key.toValue := Value.key?_eq_some_iff.1 hkey
          simp [hvalue]
      · next hkey => simp [hnone.1 hkey, eq_comm]

namespace Auditing

/-! ## The registry -/

/-- The vocabulary with its rules. -/
def standard : Registry where
  schema := .ofKinds kinds
  rules := .ofList [(monitoredKind, [monitoredRule]), (entityLoggingKind, [entityLoggingRule]),
    (allPropertiesLoggingKind, [allPropertiesLoggingRule])]

theorem registry_eq : registry = .ok standard := rfl

/-- Three kinds have a rule, and each of them has one. -/
theorem rulesFor_standard (kind : String) :
    standard.rulesFor kind =
      if kind = allPropertiesLoggingKind then [allPropertiesLoggingRule]
      else if kind = entityLoggingKind then [entityLoggingRule]
      else if kind = monitoredKind then [monitoredRule] else [] := by
  simp only [standard, Registry.rulesFor, NameMap.ofList, List.foldl_cons, List.foldl_nil,
    NameMap.get?_insert]
  split_ifs <;> rfl

theorem mem_rulesFor_standard {kind : String} {rule : Rule} :
    rule ∈ standard.rulesFor kind ↔
      kind = monitoredKind ∧ rule = monitoredRule ∨
        kind = entityLoggingKind ∧ rule = entityLoggingRule ∨
          kind = allPropertiesLoggingKind ∧ rule = allPropertiesLoggingRule := by
  rw [rulesFor_standard]
  have hmonitored : monitoredKind ≠ entityLoggingKind := by decide
  have hmonitored' : monitoredKind ≠ allPropertiesLoggingKind := by decide
  have hlogging : entityLoggingKind ≠ allPropertiesLoggingKind := by decide
  by_cases hall : kind = allPropertiesLoggingKind
  · simp [hall, hmonitored'.symm, hlogging.symm]
  · by_cases hlog : kind = entityLoggingKind
    · simp [hlog, hmonitored.symm, hlogging]
    · by_cases hmon : kind = monitoredKind <;> simp [hall, hlog, hmon, hmonitored, hmonitored']

/-- Nothing in the vocabulary is cumulative but what an entity log audits. -/
theorem isCumulative_standard {kind name : String} :
    standard.schema.isCumulative kind name = true ↔
      kind = entityLoggingKind ∧ name = auditedName := by
  constructor
  · intro h
    rw [Schema.isCumulative, Option.any_eq_true] at h
    obtain ⟨declared, hget, hname⟩ := h
    obtain ⟨hmem, rfl⟩ := Schema.mem_of_get?_ofKinds hget
    simp only [kinds, List.mem_cons, List.not_mem_nil, or_false] at hmem
    have hnone : (∅ : NameSet).contains name = false := rfl
    obtain rfl | rfl | rfl | rfl | rfl | rfl | rfl | rfl | rfl | rfl := hmem
    case inr.inr.inr.inr.inr.inl =>
      simpa [KindDef.isCumulative, NameMap.contains, NameSet.ofNames, NameMap.ofList,
        NameMap.get?_insert] using hname
    all_goals cases hnone.symm.trans hname
  · rintro ⟨rfl, rfl⟩
    decide

/-! ## Answers -/

/-- What monitoring an entity amounts to. -/
def monitoring (entity : Key) : List Concept :=
  let createdAt := property entity createdAtName timeTypeName
  [createdAt, creationTime createdAt.key, denyUserEdit createdAt.key, entityLogging entity,
    allPropertiesLogging (entityLogging entity).key]

/-- Monitoring succeeds on references to entities. -/
theorem monitoredRule_expand_eq_ok_iff {concept : Concept} {store : Store}
    {products : List Concept} :
    monitoredRule.expand concept store = .ok products ↔
      ∃ entity : Key, concept.field? 0 = some entity.toValue ∧ entity.kind = entityKind ∧
        products = monitoring entity := by
  constructor
  · intro h
    obtain ⟨entity, hentity, h⟩ := exists_of_bind_eq_ok h
    refine ⟨entity, Rule.refField_eq_ok_iff.1 hentity, ?_⟩
    dsimp only at h
    split at h
    · cases h
    · next hkind => exact ⟨not_not.1 hkind, (Except.ok.inj h).symm⟩
  · rintro ⟨entity, hentity, hkind, rfl⟩
    refine (bind_of_eq_ok (Rule.refField_eq_ok_iff.2 hentity) _).trans ?_
    exact if_neg (not_not.2 hkind)

/-- Where a log writes. -/
def logging (log : Key) : List Concept :=
  [auditLog commonLogName, logTarget log (auditLog commonLogName).key]

/-- A log of any reference writes into the common audit log. -/
theorem entityLoggingRule_expand_eq_ok_iff {concept : Concept} {store : Store}
    {products : List Concept} :
    entityLoggingRule.expand concept store = .ok products ↔
      ∃ entity : Key, concept.field? 0 = some entity.toValue ∧ products = logging concept.key := by
  constructor
  · intro h
    obtain ⟨entity, hentity, h⟩ := exists_of_bind_eq_ok h
    exact ⟨entity, Rule.refField_eq_ok_iff.1 hentity, (Except.ok.inj h).symm⟩
  · rintro ⟨entity, hentity, rfl⟩
    exact bind_of_eq_ok (Rule.refField_eq_ok_iff.2 hentity) _

/-- The concept, as a wish to audit everything, names a log whose first field refers to
the entity. -/
def Wishes (concept : Concept) (entity : Key) : Prop :=
  ∃ log : Key, concept.field? 0 = some log.toValue ∧ log.fields.head? = some entity.toValue

/-- The log of an entity, with these properties to audit. -/
def logOf (entity : Key) (properties : List Entry) : Concept :=
  (entityLogging entity).setAttribute auditedName
    (.list (properties.map (·.concept.reference)))

theorem contributed_logOf (entity : Key) (properties : List Entry) :
    Value.contributed ((logOf entity properties).attribute? auditedName) =
      properties.map (·.concept.reference) := by
  rw [logOf, Concept.setAttribute, Concept.attribute?, NameMap.get?_insert, if_pos rfl]
  rfl

/-- What there is to say of the properties of an entity; nothing if there are none. -/
def auditing (entity : Key) : List Entry → List Concept
  | [] => []
  | properties => [logOf entity properties]

/-- A wish to audit everything is granted with the properties of the entity whose log it
names. -/
theorem allPropertiesLoggingRule_expand_eq_ok_iff {concept : Concept} {store : Store}
    {products : List Concept} :
    allPropertiesLoggingRule.expand concept store = .ok products ↔
      ∃ entity, Wishes concept entity ∧
        products = auditing entity (store.withFirstField propertyKind entity) := by
  have hanswer : ∀ entity : Key,
      (match store.withFirstField propertyKind entity with
        | [] => Except.ok []
        | properties => .ok [(entityLogging entity).setAttribute auditedName
            (.list (properties.map (·.concept.reference)))] :
          Except RuleFailure (List Concept)) =
        .ok (auditing entity (store.withFirstField propertyKind entity)) := fun entity => by
    cases store.withFirstField propertyKind entity <;> rfl
  have hkey : ∀ {value? : Option Value} {entity : Key},
      value?.bind Value.key? = some entity ↔ value? = some entity.toValue := by
    simp [Option.bind_eq_some_iff, Value.key?_eq_some_iff]
  constructor
  · intro h
    obtain ⟨log, hlog, h⟩ := exists_of_bind_eq_ok h
    split at h
    · cases h
    · next entity hentity =>
        refine ⟨entity, ⟨log, Rule.refField_eq_ok_iff.1 hlog, hkey.1 hentity⟩, ?_⟩
        exact (Except.ok.inj ((hanswer entity).symm.trans h)).symm
  · rintro ⟨entity, ⟨log, hlog, hentity⟩, rfl⟩
    refine (bind_of_eq_ok (Rule.refField_eq_ok_iff.2 hlog) _).trans ?_
    rw [hkey.2 hentity]
    exact hanswer entity

theorem mem_auditing {entity : Key} {properties : List Entry} {concept : Concept} :
    concept ∈ auditing entity properties ↔ properties ≠ [] ∧ concept = logOf entity properties := by
  cases properties <;> simp [auditing]

/-! ## Properties of an entity -/

/-- The value refers to a stored property of the entity. -/
def RefersToProperty (store : Store) (entity : Key) (x : Value) : Prop :=
  ∃ entry ∈ store.entries, entry.key.kind = propertyKind ∧
    entry.key.fields.head? = some entity.toValue ∧ x = entry.concept.reference

/-- Answers refer to the properties that are stored. -/
theorem mem_withFirstField_iff {store : Store} {entity : Key} {x : Value}
    (hstore : store.WellFormed) :
    (∃ entry ∈ store.withFirstField propertyKind entity, x = entry.concept.reference) ↔
      RefersToProperty store entity x := by
  simp only [hstore.mem_withFirstField, RefersToProperty, and_assoc]

end Auditing

end ConceptExpansion
