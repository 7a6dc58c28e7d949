/-
# Scripted rules

A small language in which rules can be written down as data. A script is a list
of statements that append to the concepts a rule produces; the first failure
ends it. Expressions compute values from the concept, from the item of the
innermost loop and from the store.
-/

import ConceptExpansion.Rule.Basic

namespace ConceptExpansion.Script

/-- What computes a value. -/
inductive Expr where
  /-- A constant. -/
  | literal (value : Value)
  /-- A reference to the concept under expansion. -/
  | self
  /-- The item of the innermost loop. -/
  | item
  /-- A key field of the concept. -/
  | field (position : Nat)
  /-- An attribute of the concept, or a missing value. -/
  | attr (name : String)
  /-- An integer sum. -/
  | add (summand : Expr) (amount : Int64)
  /-- The texts of the parts, one after the other. -/
  | text (parts : List Expr)
  /-- A list. -/
  | list (items : List Expr)
  /-- A reference. -/
  | ref (kind : String) (fields : List Expr)
  /-- References to the stored concepts of a kind. -/
  | ofKind (kind : String)
  /-- References to the stored concepts of a kind with this first key field. -/
  | withFirstField (kind : String) (first : Expr)
  /-- The number of stored concepts of a kind. -/
  | countOfKind (kind : String)

/-- What decides between two branches. -/
inductive Cond where
  /-- The first value is less than the second. -/
  | less (a b : Expr)
  /-- The values are equal. -/
  | equal (a b : Expr)
  /-- The value refers to a stored concept. -/
  | stored (target : Expr)
  /-- The condition does not hold. -/
  | negation (cond : Cond)

/-- What appends to the produced concepts. -/
inductive Stmt where
  /-- Produce a concept. -/
  | emit (kind : String) (fields : List Expr) (payload : NameMap Expr)
  /-- Produce the concept under expansion, with some attributes set. -/
  | emitSelf (payload : NameMap Expr)
  /-- Give up. -/
  | fail (reason : String)
  /-- Go on with one of two branches. -/
  | branch (cond : Cond) (yes no : List Stmt)
  /-- Go on once for every item of a list. -/
  | loop (items : Expr) (body : List Stmt)

instance : Inhabited Expr := ⟨.self⟩

instance : Inhabited Cond := ⟨.equal .self .self⟩

instance : Inhabited Stmt := ⟨.fail ""⟩

/-- What a script can look at. -/
structure Scope where
  /-- The concept under expansion. -/
  concept : Concept
  /-- The store as it stands. -/
  store : Store
  /-- The item of the innermost loop. -/
  item : Value := .null

/-- The text that a value contributes to a longer one. -/
def textPart : Value → String
  | .string s => s
  | value => value.text

mutual

/-- The value of an expression. -/
def Expr.eval (scope : Scope) : Expr → Except RuleFailure Value
  | .literal value => .ok value
  | .self => .ok scope.concept.reference
  | .item => .ok scope.item
  | .field position =>
    match scope.concept.field? position with
    | some value => .ok value
    | none => .error (.missingField (toString position))
  | .attr name => .ok ((scope.concept.attribute? name).getD .null)
  | .add summand amount => do
    match ← summand.eval scope with
    | .int i => .ok (.int (i + amount))
    | value => .error (.unexpected "add" "an integer" value)
  | .text parts => do
    let values ← evalAll scope parts
    return .string (String.join (values.map textPart))
  | .list items => do
    return .list (← evalAll scope items)
  | .ref kind fields => do
    return .ref kind (← evalAll scope fields)
  | .ofKind kind => .ok (.list ((scope.store.ofKind kind).map (·.key.toValue)))
  | .withFirstField kind first => do
    let value ← first.eval scope
    return .list ((scope.store.withFirstField kind value).map (·.key.toValue))
  | .countOfKind kind => .ok (.int (.ofNat (scope.store.countOfKind kind)))

/-- The values of expressions, computed in order. -/
def evalAll (scope : Scope) : List Expr → Except RuleFailure (List Value)
  | [] => .ok []
  | expr :: rest => do
    let value ← expr.eval scope
    return value :: (← evalAll scope rest)

end

/-- Whether a condition holds. -/
def Cond.holds (scope : Scope) : Cond → Except RuleFailure Bool
  | .less a b => do
    let x ← a.eval scope
    let y ← b.eval scope
    return x.compare y = .lt
  | .equal a b => do
    let x ← a.eval scope
    let y ← b.eval scope
    return x = y
  | .stored target => do
    let value ← target.eval scope
    return value.key?.any scope.store.contains
  | .negation cond => do
    return !(← cond.holds scope)

/-- The attributes that expressions compute, in the order of the names, put into
a payload. -/
def assign (scope : Scope) (payload : Attributes) (exprs : NameMap Expr) :
    Except RuleFailure Attributes := do
  let values ← evalAll scope exprs.values
  return (exprs.names.zip values).foldl (fun payload entry => payload.insert entry.1 entry.2)
    payload

mutual

/-- The concepts that a statement produces. -/
def Stmt.run (scope : Scope) : Stmt → Except RuleFailure (List Concept)
  | .emit kind fields payload => do
    let fields ← evalAll scope fields
    return [{ kind, fields, payload := ← assign scope ∅ payload }]
  | .emitSelf payload => do
    return [scope.concept.setPayload (← assign scope scope.concept.payload payload)]
  | .fail reason => .error (.because reason)
  | .branch cond yes no => do
    if ← cond.holds scope then runAll scope yes else runAll scope no
  | .loop items body => do
    match ← items.eval scope with
    | .list values =>
      let produced ← values.mapM fun item => runAll { scope with item } body
      return produced.flatten
    | value => .error (.unexpected "for" "a list" value)

/-- The concepts that a list of statements produces. -/
def runAll (scope : Scope) : List Stmt → Except RuleFailure (List Concept)
  | [] => .ok []
  | stmt :: rest => do
    let produced ← stmt.run scope
    return produced ++ (← runAll scope rest)

end

/-- The rule of a script. -/
def toRule (name : String) (readsModel : Bool) (body : List Stmt) : Rule where
  name := name
  readsModel := readsModel
  expand concept store := runAll { concept, store } body

end ConceptExpansion.Script
