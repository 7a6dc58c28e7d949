/-
# The rules of audited domain models

Three rules work together. Monitoring an entity gives it a property for the time
of creation and a log that is to audit every property. An entity log writes into
the one common audit log, whatever the entity is. The wish to audit every
property looks at the model for the properties of the logged entity, and as it
is asked again while the model changes, the list in the log ends up complete.
-/

import ConceptExpansion.Auditing.Vocabulary
import ConceptExpansion.Rule.Registry

namespace ConceptExpansion.Auditing

/-- What monitoring an entity amounts to. -/
def monitoredRule : Rule where
  name := monitoredKind
  expand concept _ := do
    let entity ← Rule.refField concept 0 "entity"
    if entity.kind ≠ entityKind then
      .error (.because ("Monitored applies to entities, got " ++ entity.text))
    else
      let createdAt := property entity createdAtName timeTypeName
      let logging := entityLogging entity
      return [createdAt, creationTime createdAt.key, denyUserEdit createdAt.key, logging,
        allPropertiesLogging logging.key]

/-- Where an entity log writes: the common audit log, which the rule brings in
along with the tie to it. -/
def entityLoggingRule : Rule where
  name := entityLoggingKind
  expand concept _ := do
    let _ ← Rule.refField concept 0 "entity"
    let log := auditLog commonLogName
    return [log, logTarget concept.key log.key]

/-- The properties of the logged entity, as additions to the list of audited
properties in its log. Nothing is produced while there are none. -/
def allPropertiesLoggingRule : Rule where
  name := allPropertiesLoggingKind
  readsModel := true
  expand concept store := do
    let logging ← Rule.refField concept 0 "logging"
    match logging.fields.head?.bind Value.key? with
    | none => .error (.unexpected "logging" "an entity log" logging)
    | some entity =>
      match store.withFirstField propertyKind entity with
      | [] => return []
      | properties =>
        return [(entityLogging entity).setAttribute auditedName
          (.list (properties.map (·.concept.reference)))]

/-- Declares the vocabulary, up to the first kind whose name is taken. -/
def declareKinds (draft : Draft) : Draft × Except RegistryError Unit :=
  draft.addKinds kinds

/-- Declares the vocabulary and, if that succeeds, registers the three rules. -/
def register (draft : Draft) : Draft × Except RegistryError Unit :=
  match declareKinds draft with
  | (draft, .error error) => (draft, .error error)
  | (draft, .ok ()) =>
    let draft := draft.addRule monitoredKind monitoredRule
    let draft := draft.addRule entityLoggingKind entityLoggingRule
    (draft.addRule allPropertiesLoggingKind allPropertiesLoggingRule, .ok ())

/-- The registry of the vocabulary and its rules. -/
def registry : Except RegistryError Registry :=
  match register {} with
  | (_, .error error) => .error error
  | (draft, .ok ()) => draft.build

end ConceptExpansion.Auditing
