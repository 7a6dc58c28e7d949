/-
# The store

A store holds concepts in the order in which they were admitted and never lets
go of one. Two indexes serve lookups: one from keys to identifiers, and one per
kind that lists the keys of the kind in ascending order. Everything in this
module only reads; the one operation that writes is `Store.insert`.
-/

import ConceptExpansion.Schema
import Std.Data.TreeMap

namespace ConceptExpansion

/-- The number of concepts a store can hold. -/
abbrev Store.capacity : Nat := 4294967296

/-- The identifier of a stored concept: its place in the order of admission. -/
structure ConceptId where
  /-- The place, counted from zero. -/
  index : Nat
  /-- No store holds a concept beyond its capacity. -/
  index_lt : index < Store.capacity := by decide
  deriving DecidableEq

namespace ConceptId

/-- The text of an identifier. -/
def text (id : ConceptId) : String :=
  "c" ++ toString id.index

/-- The identifier of a place, if a store can have that many concepts. -/
def ofIndex? (index : Nat) : Option ConceptId :=
  if h : index < Store.capacity then some ⟨index, h⟩ else none

/-- Identifiers are ordered by admission. -/
def atMost (a b : ConceptId) : Bool :=
  a.index ≤ b.index

end ConceptId

/-- A concept as a store holds it. -/
structure Entry where
  /-- Its identifier. -/
  id : ConceptId
  /-- Its key. -/
  key : Key
  /-- The concept, with everything merged into it so far. -/
  concept : Concept
  /-- Where it first came from. -/
  origin : Origin
  deriving DecidableEq

/-- The keys of one kind, in ascending order, with their identifiers. -/
abbrev KindIndex := Std.TreeMap Key ConceptId

/-- The concepts of a model under construction. -/
structure Store where
  /-- The declared kinds. -/
  schema : Schema
  /-- The concepts, in the order of admission. -/
  entries : Array Entry := #[]
  /-- The identifier of every key. -/
  byKey : Std.TreeMap Key ConceptId := ∅
  /-- The keys of every kind. -/
  byKind : Std.TreeMap String KindIndex := ∅

namespace Store

/-- The store over a schema that holds nothing yet. -/
def empty (schema : Schema) : Store :=
  { schema }

/-- The stored concept with this identifier. -/
def get? (store : Store) (id : ConceptId) : Option Entry :=
  store.entries[id.index]?

/-- The identifier of a key. -/
def idOf? (store : Store) (key : Key) : Option ConceptId :=
  store.byKey[key]?

/-- The stored concept with this key. -/
def find? (store : Store) (key : Key) : Option Entry :=
  (store.idOf? key).bind store.get?

/-- Whether a concept with this key is stored. -/
def contains (store : Store) (key : Key) : Bool :=
  store.byKey.contains key

/-- The origin of a stored concept. -/
def originOf? (store : Store) (id : ConceptId) : Option Origin :=
  (store.get? id).map (·.origin)

/-- The number of stored concepts. -/
def size (store : Store) : Nat :=
  store.entries.size

/-- Whether nothing is stored. -/
def isEmpty (store : Store) : Bool :=
  store.entries.isEmpty

/-- The stored keys, ascending. -/
def keys (store : Store) : List Key :=
  store.byKey.keys

/-- The keys of a kind with their identifiers, in ascending order. -/
def keysOfKind (store : Store) (kind : String) : List (Key × ConceptId) :=
  match store.byKind[kind]? with
  | some index => index.toList
  | none => []

/-- The concepts of a kind, in ascending order of their keys. -/
def ofKind (store : Store) (kind : String) : List Entry :=
  (store.keysOfKind kind).filterMap fun entry => store.get? entry.2

/-- The number of concepts of a kind. -/
def countOfKind (store : Store) (kind : String) : Nat :=
  match store.byKind[kind]? with
  | some index => index.size
  | none => 0

/-- The keys of a kind that start with the field `first`, found as one run of
the ascending list: it begins at the least key with that first field and ends
with the first key that has another. -/
def keysWithFirstField (store : Store) (kind : String) (first : Value) :
    List (Key × ConceptId) :=
  let fromLeast := (store.keysOfKind kind).dropWhile fun entry =>
    entry.1.compare ⟨kind, [first]⟩ == .lt
  fromLeast.takeWhile fun entry => entry.1.fields.head? == some first

/-- The concepts of a kind whose first key field is `first`, in ascending order
of their keys. -/
def withFirstField (store : Store) (kind : String) (first : Value) : List Entry :=
  (store.keysWithFirstField kind first).filterMap fun entry => store.get? entry.2

end Store

end ConceptExpansion
