/-
# Values and keys

A value is what a concept holds in a key field or a payload attribute. A key is
a concept's structural identity: its kind and the values of its key fields.
One concept refers to another by holding the other's key, so two references are
equal exactly when their targets are. There is no sharing and no indirection,
and a key can never contain itself.
-/

namespace ConceptExpansion

/-- A value of a key field or a payload attribute. -/
inductive Value where
  /-- A missing value. -/
  | null
  /-- A truth value. -/
  | bool (b : Bool)
  /-- A 64-bit signed integer. -/
  | int (i : Int64)
  /-- A text. -/
  | string (s : String)
  /-- A reference to the concept of this kind whose key fields hold these values. -/
  | ref (kind : String) (fields : List Value)
  /-- A list of values. -/
  | list (items : List Value)

/-- The structural identity of a concept. -/
structure Key where
  /-- The kind of the identified concept. -/
  kind : String
  /-- The values of the key fields, in the order in which the kind declares them. -/
  fields : List Value

/-- A reference to the concept that the key identifies. -/
def Key.toValue (key : Key) : Value :=
  .ref key.kind key.fields

instance : Inhabited Value := ⟨.null⟩

instance : Inhabited Key := ⟨⟨"", []⟩⟩

instance : Coe Key Value := ⟨Key.toValue⟩

namespace Value

/-- The name of the value's type. -/
def typeName : Value → String
  | null => "Null"
  | bool _ => "Bool"
  | int _ => "Int"
  | string _ => "String"
  | ref _ _ => "Ref"
  | list _ => "List"

/-- Whether the value is missing. -/
def isNull : Value → Bool
  | null => true
  | _ => false

/-- Whether the value is a reference. -/
def isRef : Value → Bool
  | ref _ _ => true
  | _ => false

/-- The truth value, if the value is one. -/
def bool? : Value → Option Bool
  | bool b => some b
  | _ => none

/-- The integer, if the value is one. -/
def int? : Value → Option Int64
  | int i => some i
  | _ => none

/-- The text, if the value is one. -/
def string? : Value → Option String
  | string s => some s
  | _ => none

/-- The key referred to, if the value is a reference. -/
def key? : Value → Option Key
  | ref kind fields => some ⟨kind, fields⟩
  | _ => none

/-- The items, if the value is a list. -/
def list? : Value → Option (List Value)
  | list items => some items
  | _ => none

mutual

/-- The keys that a value refers to, in order. Lists are entered at any depth;
the key fields of a key referred to are not. -/
def refs : Value → List Key
  | ref kind fields => [⟨kind, fields⟩]
  | list items => refsOfAll items
  | _ => []

/-- The keys that the values refer to, in order. -/
def refsOfAll : List Value → List Key
  | [] => []
  | value :: rest => value.refs ++ refsOfAll rest

end

/-- The two places in which a value is written: on its own, or as a segment of
the path of a key. -/
inductive Place where
  | standalone
  | segment

mutual

/-- The text of a value. On its own a text stands in plain quotes and a
reference in angle brackets; as a segment of a path a text is bare and a
reference contributes its own path. List items are always written on their
own. -/
def textAt : Place → Value → String
  | _, null => "null"
  | _, bool b => if b then "true" else "false"
  | _, int i => toString i.toInt
  | .standalone, string s => "\"" ++ s ++ "\""
  | .segment, string s => s
  | .standalone, ref kind fields =>
    "<" ++ kind ++ " " ++ ".".intercalate (textsAt .segment fields) ++ ">"
  | .segment, ref _ fields => ".".intercalate (textsAt .segment fields)
  | _, list items => "[" ++ ", ".intercalate (textsAt .standalone items) ++ "]"

/-- The texts of values that stand in one place. -/
def textsAt : Place → List Value → List String
  | _, [] => []
  | place, value :: rest => textAt place value :: textsAt place rest

end

/-- The text of a value on its own. -/
def text (value : Value) : String :=
  textAt .standalone value

end Value

namespace Key

/-- The keys that the key fields refer to, in order. -/
def refs (key : Key) : List Key :=
  Value.refsOfAll key.fields

/-- The dotted path of the key fields. -/
def path (key : Key) : String :=
  ".".intercalate (Value.textsAt .segment key.fields)

/-- The text of a key: its kind, a space and its path. -/
def text (key : Key) : String :=
  key.kind ++ " " ++ key.path

example : (Key.mk "Property" [.ref "Entity" [.string "Shop", .string "Book"], .string "Title"]).text
    = "Property Shop.Book.Title" := by decide

end Key

end ConceptExpansion
