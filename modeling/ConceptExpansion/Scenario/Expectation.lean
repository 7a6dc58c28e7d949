/-
# Expectations

What a test expects of an expansion, and how it says what is amiss. Concepts are
named by the texts of their keys. An expectation about the error replaces all
others, because an expansion that fails has no model to look at.
-/

import ConceptExpansion.Inspection
import ConceptExpansion.Model

namespace ConceptExpansion

namespace Model

/-- The first concept, dependencies first, whose key has this text. -/
def named? (model : Model) (name : String) : Option Entry :=
  model.entries.find? (·.key.text = name)

/-- The place of the first concept whose key has this text, in the order that
puts dependencies first. -/
def placeOf? (model : Model) (name : String) : Option Nat :=
  model.entries.findIdx? (·.key.text = name)

end Model

/-- What is expected of an expansion. -/
structure Expectation where
  /-- The number of concepts. -/
  size : Option Nat := none
  /-- The numbers of concepts of some kinds. -/
  kinds : List (String × Nat) := []
  /-- Concepts that the model holds. -/
  present : List String := []
  /-- Concepts that the model does not hold. -/
  absent : List String := []
  /-- Attributes of concepts: a concept, the name of the attribute, its value. -/
  attributes : List (String × String × Value) := []
  /-- Pairs of concepts of which the first comes before the second. -/
  before : List (String × String) := []
  /-- A part of the message of the error. -/
  error : Option String := none
  /-- A condition on the model. -/
  model : Option (Model → Bool) := none
  /-- A condition on the error. -/
  failure : Option (ExpansionError → Bool) := none

/-- How an expansion can miss an expectation. -/
inductive Mismatch where
  /-- An error was expected, but there is a model of this size. -/
  | succeeded (size : Nat)
  /-- The message of the error lacks the expected part. -/
  | otherMessage (expected message : String)
  /-- The error does not meet the condition. -/
  | otherError (error : ExpansionError)
  /-- A model was expected, but there is an error. -/
  | failed (error : ExpansionError)
  /-- The model has another size. -/
  | otherSize (expected actual : Nat) (keys : List Key)
  /-- The model has another number of concepts of a kind. -/
  | otherCount (kind : String) (expected actual : Nat)
  /-- The model lacks a concept. -/
  | missing (name : String) (keys : List Key)
  /-- The model holds an unwanted concept. -/
  | unwanted (name : String)
  /-- The model lacks a concept that another expectation is about. -/
  | unknown (name : String)
  /-- An attribute has another value, or none. -/
  | attributeValue (name attributeName : String) (expected : Value) (actual : Option Value)
  /-- The first concept does not come before the second. -/
  | order (first second : String)
  /-- The model does not meet the condition. -/
  | otherModel

namespace Mismatch

/-- The texts of keys, one after the other. -/
def keyTexts (keys : List Key) : String :=
  ", ".intercalate (keys.map Key.text)

/-- The text of a mismatch. -/
def message : Mismatch → String
  | succeeded size => s!"expected expansion to fail, but it produced {size} concepts"
  | otherMessage expected message =>
    "expected error containing '" ++ expected ++ "', got: " ++ message
  | otherError error => "error check rejected: " ++ error.inspect
  | failed error => "expansion failed: " ++ error.message
  | otherSize expected actual keys =>
    s!"expected {expected} concepts, got {actual}: [" ++ keyTexts keys ++ "]"
  | otherCount kind expected actual =>
    s!"expected {expected} concepts of kind " ++ kind ++ s!", got {actual}"
  | missing name keys => "expected " ++ name ++ " in model: [" ++ keyTexts keys ++ "]"
  | unwanted name => "expected " ++ name ++ " to be absent"
  | unknown name => name ++ " not in model"
  | attributeValue name attributeName expected actual =>
    name ++ "." ++ attributeName ++ ": expected " ++ expected.text ++ ", got "
      ++ (actual.map Value.text).getD "nothing"
  | order first second => "expected " ++ first ++ " to be ordered before " ++ second
  | otherModel => "custom assertion failed"

end Mismatch

namespace Expectation

/-- Whether an error is expected. -/
def expectsError (expectation : Expectation) : Bool :=
  expectation.error.isSome || expectation.failure.isSome

/-- What is amiss with an error, where one is expected. -/
def checkError (expectation : Expectation) (error : ExpansionError) : Except Mismatch Unit := do
  if let some expected := expectation.error then
    unless error.message.contains expected do
      throw (.otherMessage expected error.message)
  if let some accepts := expectation.failure then
    unless accepts error do
      throw (.otherError error)

/-- What is amiss with a model, where one is expected. -/
def checkModel (expectation : Expectation) (model : Model) : Except Mismatch Unit := do
  if let some expected := expectation.size then
    unless model.size = expected do
      throw (.otherSize expected model.size model.keys)
  for (kind, expected) in expectation.kinds do
    let actual := (model.ofKind kind).length
    unless actual = expected do
      throw (.otherCount kind expected actual)
  for name in expectation.present do
    if (model.named? name).isNone then
      throw (.missing name model.keys)
  for name in expectation.absent do
    if (model.named? name).isSome then
      throw (.unwanted name)
  for (name, attributeName, expected) in expectation.attributes do
    match model.named? name with
    | none => throw (.unknown name)
    | some entry =>
      let actual := entry.concept.attribute? attributeName
      unless actual = some expected do
        throw (.attributeValue name attributeName expected actual)
  for (first, second) in expectation.before do
    match model.placeOf? first, model.placeOf? second with
    | none, _ => throw (.unknown first)
    | some _, none => throw (.unknown second)
    | some place, some next =>
      unless place < next do
        throw (.order first second)
  if let some accepts := expectation.model then
    unless accepts model do
      throw .otherModel

/-- What is amiss with the outcome of an expansion. The checks are made in a
fixed order, and the first that fails counts. -/
def check (expectation : Expectation) (outcome : Except ExpansionError Model) :
    Except Mismatch Unit :=
  match expectation.expectsError, outcome with
  | true, .error error => expectation.checkError error
  | true, .ok model => .error (.succeeded model.size)
  | false, .error error => .error (.failed error)
  | false, .ok model => expectation.checkModel model

/-- The structure of an expectation. Conditions are shown by their presence. -/
def inspect (expectation : Expectation) : String :=
  let condition := "\"<fn>\""
  Inspection.record "Assertion" [
    ("concepts", Inspection.optional (expectation.size.map toString)),
    ("kinds", Inspection.list (expectation.kinds.map fun (kind, count) =>
      Inspection.tuple [Text.quote kind, toString count])),
    ("contains", Inspection.list (expectation.present.map Text.quote)),
    ("absent", Inspection.list (expectation.absent.map Text.quote)),
    ("attrs", Inspection.list (expectation.attributes.map fun (name, attributeName, value) =>
      Inspection.tuple [Text.quote name, Text.quote attributeName, value.inspect])),
    ("before", Inspection.list (expectation.before.map fun (first, second) =>
      Inspection.tuple [Text.quote first, Text.quote second])),
    ("error", Inspection.optional (expectation.error.map Text.quote)),
    ("custom", Inspection.optional (expectation.model.map fun _ => condition)),
    ("failure", Inspection.optional (expectation.failure.map fun _ => condition))]

/-! ## Adding to an expectation -/

/-- Expects this number of concepts. -/
def withSize (expectation : Expectation) (size : Nat) : Expectation :=
  { expectation with size := some size }

/-- Expects this number of concepts of a kind. -/
def withKind (expectation : Expectation) (kind : String) (count : Nat) : Expectation :=
  { expectation with kinds := expectation.kinds ++ [(kind, count)] }

/-- Expects a concept. -/
def withPresent (expectation : Expectation) (name : String) : Expectation :=
  { expectation with present := expectation.present ++ [name] }

/-- Expects the absence of a concept. -/
def withAbsent (expectation : Expectation) (name : String) : Expectation :=
  { expectation with absent := expectation.absent ++ [name] }

/-- Expects an attribute of a concept. -/
def withAttribute (expectation : Expectation) (name attributeName : String) (value : Value) :
    Expectation :=
  { expectation with attributes := expectation.attributes ++ [(name, attributeName, value)] }

/-- Expects the first concept before the second. -/
def withBefore (expectation : Expectation) (first second : String) : Expectation :=
  { expectation with before := expectation.before ++ [(first, second)] }

/-- Expects an error whose message has this part. -/
def withError (expectation : Expectation) (part : String) : Expectation :=
  { expectation with error := some part }

/-- Expects a model that meets a condition. -/
def withModel (expectation : Expectation) (accepts : Model → Bool) : Expectation :=
  { expectation with model := some accepts }

/-- Expects an error that meets a condition. -/
def withFailure (expectation : Expectation) (accepts : ExpansionError → Bool) : Expectation :=
  { expectation with failure := some accepts }

end Expectation

end ConceptExpansion
