/-
# The vocabulary of audited domain models

Entities have properties, properties have data types, and an entity may be
logged: an entity log lists the properties that it audits and writes into an
audit log. Data types are a sink kind, so models refer to them without holding
them. This module names the kinds and writes down a concept of each.
-/

import ConceptExpansion.Schema

namespace ConceptExpansion.Auditing

/-! ## Names -/

/-- The kind of entities. -/
def entityKind : String := "Entity"

/-- The kind of data types, a sink. -/
def dataTypeKind : String := "DataType"

/-- The kind of properties of entities. -/
def propertyKind : String := "Property"

/-- The kind of the mark on a property that holds a time of creation. -/
def creationTimeKind : String := "CreationTime"

/-- The kind of the mark on a property that users must not edit. -/
def denyUserEditKind : String := "DenyUserEdit"

/-- The kind of entity logs. -/
def entityLoggingKind : String := "EntityLogging"

/-- The kind of the wish to audit every property of a logged entity. -/
def allPropertiesLoggingKind : String := "AllPropertiesLogging"

/-- The kind of audit logs. -/
def auditLogKind : String := "AuditLog"

/-- The kind of the tie between an entity log and the audit log it writes into. -/
def logTargetKind : String := "LogTarget"

/-- The kind of the wish to monitor an entity. -/
def monitoredKind : String := "Monitored"

/-- The attribute of a property that refers to its data type. -/
def typeName : String := "type"

/-- The cumulative attribute of an entity log that lists the audited properties. -/
def auditedName : String := "audited"

/-- The audit log that every entity log writes into. -/
def commonLogName : String := "Common"

/-- The property that a monitored entity gets. -/
def createdAtName : String := "CreatedAt"

/-- The data type of the property that a monitored entity gets. -/
def timeTypeName : String := "DateTime"

/-! ## Concepts -/

/-- An entity of a module. -/
def entity (moduleName name : String) : Concept :=
  { kind := entityKind, fields := [.string moduleName, .string name] }

/-- The key of a data type. -/
def dataType (name : String) : Key :=
  ⟨dataTypeKind, [.string name]⟩

/-- A property of an entity. -/
def property (entity : Key) (name type : String) : Concept where
  kind := propertyKind
  fields := [entity, .string name]
  payload := .ofList [(typeName, dataType type)]

/-- The mark that the property holds a time of creation. -/
def creationTime (property : Key) : Concept :=
  { kind := creationTimeKind, fields := [property] }

/-- The mark that users must not edit the property. -/
def denyUserEdit (property : Key) : Concept :=
  { kind := denyUserEditKind, fields := [property] }

/-- The log of an entity. -/
def entityLogging (entity : Key) : Concept :=
  { kind := entityLoggingKind, fields := [entity] }

/-- The wish that the log audits every property of its entity. -/
def allPropertiesLogging (logging : Key) : Concept :=
  { kind := allPropertiesLoggingKind, fields := [logging] }

/-- An audit log. -/
def auditLog (name : String) : Concept :=
  { kind := auditLogKind, fields := [.string name] }

/-- The tie between an entity log and an audit log. -/
def logTarget (logging log : Key) : Concept :=
  { kind := logTargetKind, fields := [logging, log] }

/-- The wish to monitor an entity. -/
def monitored (entity : Key) : Concept :=
  { kind := monitoredKind, fields := [entity] }

example : (creationTime (property (entity "Shop" "Book").key "CreatedAt" "DateTime").key).text
    = "CreationTime Shop.Book.CreatedAt" := by decide

/-! ## Declarations -/

/-- The kinds of the vocabulary, in the order in which they are declared. -/
def kinds : List KindDef :=
  [{ name := entityKind, keyFields := ["module", "name"] },
    { name := dataTypeKind, keyFields := ["name"], sink := true },
    { name := propertyKind, keyFields := ["entity", "name"] },
    { name := creationTimeKind, keyFields := ["property"] },
    { name := denyUserEditKind, keyFields := ["property"] },
    { name := entityLoggingKind, keyFields := ["entity"], cumulative := .ofNames [auditedName] },
    { name := allPropertiesLoggingKind, keyFields := ["logging"] },
    { name := auditLogKind, keyFields := ["name"] },
    { name := logTargetKind, keyFields := ["logging", "log"] },
    { name := monitoredKind, keyFields := ["entity"] }]

end ConceptExpansion.Auditing
