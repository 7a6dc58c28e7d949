/-
# Concepts and their origins

A concept is one declared or derived fact of a model. Its kind and its key
fields identify it; its payload, a map from attribute names to values, says the
rest. Two concepts with one key are two descriptions of the same fact.
-/

import ConceptExpansion.NameMap
import ConceptExpansion.Value.Order

namespace ConceptExpansion

/-- The payload of a concept: its attributes by name. -/
abbrev Attributes := NameMap Value

/-- One declared or derived fact. -/
structure Concept where
  /-- The kind of the concept. -/
  kind : String
  /-- The values of the key fields, in the order in which the kind declares them. -/
  fields : List Value := []
  /-- What is not part of the key. -/
  payload : Attributes := ∅
  deriving DecidableEq, Inhabited

namespace Concept

/-- The concept with one more key field. -/
def addField (concept : Concept) (value : Value) : Concept :=
  { concept with fields := concept.fields ++ [value] }

/-- The concept with an attribute set. -/
def setAttribute (concept : Concept) (name : String) (value : Value) : Concept :=
  { concept with payload := concept.payload.insert name value }

/-- The concept with another payload in place of its own. -/
def setPayload (concept : Concept) (payload : Attributes) : Concept :=
  { concept with payload }

/-- The structural identity of the concept. -/
def key (concept : Concept) : Key :=
  ⟨concept.kind, concept.fields⟩

/-- A reference to the concept. -/
def reference (concept : Concept) : Value :=
  concept.key.toValue

/-- The attribute of this name. -/
def attribute? (concept : Concept) (name : String) : Option Value :=
  concept.payload.get? name

/-- The key field at this position, counted from zero. -/
def field? (concept : Concept) (position : Nat) : Option Value :=
  concept.fields[position]?

/-- The keys that the key fields refer to, in order. -/
def keyRefs (concept : Concept) : List Key :=
  Value.refsOfAll concept.fields

/-- The keys that the attributes refer to, in the order of the attribute names. -/
def payloadRefs (concept : Concept) : List Key :=
  Value.refsOfAll concept.payload.values

/-- Every key that the concept refers to, key fields first. -/
def refs (concept : Concept) : List Key :=
  concept.keyRefs ++ concept.payloadRefs

/-- Whether any key field or attribute refers to `key`. -/
def refersTo (concept : Concept) (key : Key) : Bool :=
  concept.refs.contains key

/-- The text of the concept is the text of its key. -/
def text (concept : Concept) : String :=
  concept.key.text

end Concept

/-- Where a concept of a model came from. -/
inductive Origin where
  /-- Given as a seed, at this position of the caller's list. -/
  | seed (position : Nat)
  /-- Produced by the named rule from the concept with the key `source`. -/
  | rule (name : String) (source : Key)
  deriving DecidableEq

namespace Origin

/-- Whether the concept was given as a seed. -/
def isSeed : Origin → Bool
  | seed _ => true
  | rule _ _ => false

/-- The text of an origin. -/
def text : Origin → String
  | seed position => "seed #" ++ toString position
  | rule name source => "rule '" ++ name ++ "' expanding " ++ source.text

end Origin

end ConceptExpansion
