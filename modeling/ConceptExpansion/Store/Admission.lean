/-
# Admission

`Store.insert` is the only way into a store. A concept enters when its kind is
declared with as many key fields as the concept has, and when every key
reference of it is resolvable. A concept whose key is already stored describes
a stored concept once more: the cumulative attributes of the two descriptions
add up, and the others have to agree.
-/

import ConceptExpansion.Store.Reference

namespace ConceptExpansion

/-- Two descriptions of one key that disagree. -/
structure Conflict where
  /-- The key that both describe. -/
  key : Key
  /-- The attribute on which they disagree, the first in the order of names. -/
  attributeName : String
  /-- The stored description. -/
  existing : Concept
  /-- Where the stored description came from. -/
  existingOrigin : Origin
  /-- The description that was refused. -/
  incoming : Concept
  /-- Where the refused description came from. -/
  incomingOrigin : Origin
  deriving DecidableEq

/-- Why a store refuses a concept or a handle to it. -/
inductive StoreError where
  /-- The concept does not fit the schema. -/
  | invalid (cause : SchemaError)
  /-- A key field of `referrer` refers to `target`, which is not stored. -/
  | unresolved (referrer target : Key)
  /-- The concept contradicts a stored one. -/
  | conflict (conflict : Conflict)
  /-- A writer gave up half way, so the contents cannot be trusted. -/
  | poisoned
  /-- The store cannot be taken back while it is shared by this many handles. -/
  | stillShared (handles : Nat)
  /-- The store is full. -/
  | capacity (key : Key) (limit : Nat)
  deriving DecidableEq

namespace StoreError

/-- The text of a store error. -/
def message : StoreError → String
  | invalid cause => cause.message
  | unresolved referrer target =>
    referrer.text ++ " references " ++ target.text ++ ", which is not in the model"
  | conflict c =>
    "Conflicting definitions of " ++ c.key.text ++ " (field '" ++ c.attributeName ++ "'): "
      ++ c.existingOrigin.text ++ " vs " ++ c.incomingOrigin.text
  | poisoned => "Concept store lock poisoned"
  | stillShared handles => s!"Concept store is still shared by {handles} handles"
  | capacity key limit =>
    "Concept store is full: " ++ key.text ++ s!" would exceed {limit} concepts"

/-- Whether admitting more concepts may cure the error. -/
def isTransient : StoreError → Bool
  | unresolved _ _ => true
  | _ => false

end StoreError

/-- The outcome of an admission. -/
inductive Admission where
  /-- The key was new, and the concept is stored now. -/
  | admitted (id : ConceptId)
  /-- The concept adds nothing to what is stored. -/
  | alreadyPresent (id : ConceptId)
  /-- The key was stored, and its cumulative attributes have grown. -/
  | merged (id : ConceptId)
  deriving DecidableEq

namespace Admission

/-- The stored concept that the admission was about. -/
def id : Admission → ConceptId
  | admitted id => id
  | alreadyPresent id => id
  | merged id => id

/-- Whether a concept entered the store. -/
def isNew : Admission → Bool
  | admitted _ => true
  | _ => false

/-- Whether the store is another one now. -/
def changed : Admission → Bool
  | alreadyPresent _ => false
  | _ => true

end Admission

namespace Value

/-- What a value contributes to a cumulative attribute: a list its items, a
missing value nothing, any other value itself. -/
def contributions : Value → List Value
  | null => []
  | list items => items
  | value => [value]

/-- The union of two values seen as sets, written as an ascending list. -/
def union (a b : Value) : Value :=
  list (canonical (a.contributions ++ b.contributions))

end Value

namespace KindDef

/-- The payload with every cumulative attribute written as an ascending list. -/
def normalize (kind : KindDef) (payload : Attributes) : Attributes :=
  payload.mapValues fun name value =>
    if kind.isCumulative name then Value.null.union value else value

/-- The attributes of either payload, ascending. -/
def attributesOfBoth (a b : Attributes) : List String :=
  (NameSet.ofNames (a.names ++ b.names)).names

/-- The first attribute, in the order of names, that is not cumulative and that
the two payloads do not agree on. -/
def disagreement? (kind : KindDef) (existing incoming : Attributes) : Option String :=
  (attributesOfBoth existing incoming).find? fun name =>
    !kind.isCumulative name && existing.get? name != incoming.get? name

/-- The payload `existing` with the cumulative attributes of `incoming` added. -/
def merge (kind : KindDef) (existing incoming : Attributes) : Attributes :=
  (attributesOfBoth existing incoming).foldl (fun merged name =>
    if kind.isCumulative name then
      merged.insert name
        (((existing.get? name).getD .null).union ((incoming.get? name).getD .null))
    else merged) existing

end KindDef

namespace Store

/-- The key of a concept all of whose key references are resolvable. -/
def resolve (store : Store) (concept : Concept) : Except StoreError Key :=
  match store.missingTarget? concept with
  | some target => .error (.unresolved concept.key target)
  | none => .ok concept.key

/-- The store with a new concept at the end. -/
def push (store : Store) (entry : Entry) : Store where
  schema := store.schema
  entries := store.entries.push entry
  byKey := store.byKey.insert entry.key entry.id
  byKind := store.byKind.alter entry.key.kind fun index? =>
    some ((index?.getD ∅).insert entry.key entry.id)

/-- The store with another payload for a stored concept. -/
def setPayload (store : Store) (id : ConceptId) (payload : Attributes) : Store :=
  { store with
    entries := store.entries.modify id.index fun entry =>
      { entry with concept := entry.concept.setPayload payload } }

/-- Describes the stored concept `entry` once more. -/
def reinsert (store : Store) (kind : KindDef) (entry : Entry) (concept : Concept)
    (origin : Origin) : Except StoreError (Admission × Store) :=
  match kind.disagreement? entry.concept.payload concept.payload with
  | some attributeName =>
    .error (.conflict
      { key := entry.key, attributeName
        existing := entry.concept, existingOrigin := entry.origin
        incoming := concept, incomingOrigin := origin })
  | none =>
    let merged := kind.merge entry.concept.payload concept.payload
    if merged = entry.concept.payload then .ok (.alreadyPresent entry.id, store)
    else .ok (.merged entry.id, store.setPayload entry.id merged)

/-- Stores a concept whose key is new. -/
def insertNew (store : Store) (kind : KindDef) (concept : Concept) (origin : Origin) :
    Except StoreError (Admission × Store) :=
  match ConceptId.ofIndex? store.size with
  | none => .error (.capacity concept.key capacity)
  | some id =>
    let concept' := concept.setPayload (kind.normalize concept.payload)
    .ok (.admitted id, store.push { id, key := concept.key, concept := concept', origin })

/-- Admits a concept. -/
def insert (store : Store) (concept : Concept) (origin : Origin) :
    Except StoreError (Admission × Store) :=
  match store.schema.validate concept with
  | .error cause => .error (.invalid cause)
  | .ok kind =>
    match store.missingTarget? concept with
    | some target => .error (.unresolved concept.key target)
    | none =>
      match store.find? concept.key with
      | some entry => store.reinsert kind entry concept origin
      | none => store.insertNew kind concept origin

/-- Admits one concept after the other and keeps what each attempt answered. An
attempt that fails leaves the store as it was. -/
def insertAll (store : Store) :
    List (Concept × Origin) → List (Except StoreError Admission) × Store
  | [] => ([], store)
  | (concept, origin) :: rest =>
    match store.insert concept origin with
    | .ok (admission, store') =>
      let (answers, last) := insertAll store' rest
      (.ok admission :: answers, last)
    | .error error =>
      let (answers, last) := insertAll store rest
      (.error error :: answers, last)

end Store

end ConceptExpansion
