/-
# Values and keys are totally ordered

Which of two values comes first is said here without computing: the one whose type comes
earlier, and of two values of one type the smaller one, texts by their bytes in UTF-8,
lists at the first place where they part or at which one of them ends. A reference goes by
its kind first and then by its fields, and so does a key. The comparisons decide exactly
this relation and answer `eq` exactly on equal arguments, at any depth of nesting. So
sorting has one outcome for values that are given in any order and any number of times.
-/

import Mathlib
import ConceptExpansion.Proofs.Text.Bytes
import ConceptExpansion.Proofs.Value.Canonical

namespace ConceptExpansion

namespace Value

/-- The names of the types, in the order of the types. -/
def typeNames : List String :=
  ["Null", "Bool", "Int", "String", "Ref", "List"]

/-- The first value comes strictly before the second. -/
inductive Before : Value → Value → Prop
  | type {a b : Value} (h : typeNames.idxOf a.typeName < typeNames.idxOf b.typeName) : Before a b
  | bool : Before (.bool false) (.bool true)
  | int {i j : Int64} (h : i.toInt < j.toInt) : Before (.int i) (.int j)
  | string {s t : String} (h : Text.bytes s < Text.bytes t) : Before (.string s) (.string t)
  | kind {kind kind' : String} {fields fields' : List Value}
      (h : Text.bytes kind < Text.bytes kind') : Before (.ref kind fields) (.ref kind' fields')
  | fields {kind : String} {fields fields' : List Value} (h : List.Lex Before fields fields') :
      Before (.ref kind fields) (.ref kind fields')
  | items {items items' : List Value} (h : List.Lex Before items items') :
      Before (.list items) (.list items')

/-! ## What comes before a value of the same type -/

theorem before_iff_of_typeName_ne {a b : Value} (h : a.typeName ≠ b.typeName) :
    a.Before b ↔ typeNames.idxOf a.typeName < typeNames.idxOf b.typeName := by
  refine ⟨fun hbefore => ?_, .type⟩
  cases hbefore with
  | type hlt => exact hlt
  | _ => exact absurd rfl h

theorem not_before_null : ¬ Before null null
  | .type hlt => Nat.lt_irrefl _ hlt

theorem before_bool_iff {x y : Bool} : Before (bool x) (bool y) ↔ x = false ∧ y = true := by
  constructor
  · intro h
    cases h with
    | type hlt => exact absurd hlt (Nat.lt_irrefl _)
    | bool => exact ⟨rfl, rfl⟩
  · rintro ⟨rfl, rfl⟩
    exact .bool

theorem before_int_iff {i j : Int64} : Before (int i) (int j) ↔ i.toInt < j.toInt := by
  refine ⟨fun h => ?_, .int⟩
  cases h with
  | type hlt => exact absurd hlt (Nat.lt_irrefl _)
  | int hlt => exact hlt

theorem before_string_iff {s t : String} :
    Before (string s) (string t) ↔ Text.bytes s < Text.bytes t := by
  refine ⟨fun h => ?_, .string⟩
  cases h with
  | type hlt => exact absurd hlt (Nat.lt_irrefl _)
  | string hlt => exact hlt

theorem before_ref_iff {kind kind' : String} {fields fields' : List Value} :
    Before (ref kind fields) (ref kind' fields') ↔
      Text.bytes kind < Text.bytes kind' ∨ kind = kind' ∧ List.Lex Before fields fields' := by
  constructor
  · intro h
    cases h with
    | type hlt => exact absurd hlt (Nat.lt_irrefl _)
    | kind hkind => exact .inl hkind
    | fields hlex => exact .inr ⟨rfl, hlex⟩
  · rintro (hkind | ⟨rfl, hlex⟩)
    · exact .kind hkind
    · exact .fields hlex

theorem before_list_iff {items items' : List Value} :
    Before (list items) (list items') ↔ List.Lex Before items items' := by
  refine ⟨fun h => ?_, .items⟩
  cases h with
  | type hlt => exact absurd hlt (Nat.lt_irrefl _)
  | items hlex => exact hlex

/-! ## Comparing decides it -/

theorem rank_eq_idxOf (a : Value) : a.rank = typeNames.idxOf a.typeName := by
  cases a <;> rfl

theorem compare_of_typeName_ne {a b : Value} (h : a.typeName ≠ b.typeName) :
    compare a b = Ord.compare a.rank b.rank := by
  fun_cases compare a b with
  | case7 => rfl
  | _ => exact absurd rfl h

mutual

/-- Comparing decides which of two values comes first. -/
theorem compare_eq_lt_iff_before (a b : Value) : compare a b = .lt ↔ a.Before b := by
  by_cases htypes : a.typeName = b.typeName
  -- Only two values of one type are looked into.
  · cases a <;> cases b <;> simp only [typeName, String.reduceEq] at htypes
    case null.null => simp [compare, not_before_null]
    case bool.bool x y =>
      rw [before_bool_iff]
      cases x <;> cases y <;> decide
    case int.int i j => rw [before_int_iff, compare, Int.compare_eq_lt]
    case string.string s t => rw [before_string_iff, compare, Text.compare_eq_lt_iff]
    case ref.ref kind fields kind' fields' =>
      rw [before_ref_iff, compare, Ordering.then_eq_lt, Text.compare_eq_lt_iff,
        Std.LawfulEqOrd.compare_eq_iff_eq, compareAll_eq_lt_iff_lex fields fields']
    case list.list items items' =>
      rw [before_list_iff, compare, compareAll_eq_lt_iff_lex items items']
  · rw [compare_of_typeName_ne htypes, before_iff_of_typeName_ne htypes, Nat.compare_eq_lt,
      rank_eq_idxOf, rank_eq_idxOf]

/-- Lists are compared at the first place where they part. -/
theorem compareAll_eq_lt_iff_lex :
    ∀ as bs : List Value, compareAll as bs = .lt ↔ List.Lex Before as bs
  | [], [] => by simp [compareAll]
  | [], _ :: _ => by simp [compareAll]
  | _ :: _, [] => by simp [compareAll]
  | a :: as, b :: bs => by
    rw [compareAll, Ordering.then_eq_lt, List.cons_lex_cons_iff,
      Std.LawfulEqCmp.compare_eq_iff_eq, compare_eq_lt_iff_before a b,
      compareAll_eq_lt_iff_lex as bs]

end

end Value

namespace Key

/-- The first key comes strictly before the second: by its kind, and under one kind by its
fields. -/
inductive Before : Key → Key → Prop
  | kind {a b : Key} (h : Text.bytes a.kind < Text.bytes b.kind) : Before a b
  | fields {a b : Key} (hkind : a.kind = b.kind) (h : List.Lex Value.Before a.fields b.fields) :
      Before a b

theorem before_iff_toValue {a b : Key} : a.Before b ↔ a.toValue.Before b.toValue := by
  rw [toValue, toValue, Value.before_ref_iff]
  constructor
  · intro h
    cases h with
    | kind hkind => exact .inl hkind
    | fields hkind hlex => exact .inr ⟨hkind, hlex⟩
  · rintro (hkind | ⟨hkind, hlex⟩)
    · exact .kind hkind
    · exact .fields hkind hlex

/-- Comparing decides which of two keys comes first. -/
theorem compare_eq_lt_iff_before (a b : Key) : compare a b = .lt ↔ a.Before b := by
  rw [← compare_toValue, before_iff_toValue, Value.compare_eq_lt_iff_before]

end Key

/-! ## Comparisons that decide a linear order -/

/-- The comparison decides a linear order, in which `before` says what comes strictly before
what: it is reflexive, antisymmetric, transitive and total, and it answers `eq` exactly on
equal arguments. -/
structure DecidesOrder {α : Type} (compare : α → α → Ordering) (before : α → α → Prop) : Prop where
  lt_iff : ∀ a b, compare a b = .lt ↔ before a b
  gt_iff : ∀ a b, compare a b = .gt ↔ before b a
  eq_iff : ∀ a b, compare a b = .eq ↔ a = b
  refl : ∀ a, (compare a a).isLE
  antisymm : ∀ a b, (compare a b).isLE → (compare b a).isLE → a = b
  trans : ∀ a b c, (compare a b).isLE → (compare b c).isLE → (compare a c).isLE
  total : ∀ a b, (compare a b).isLE ∨ (compare b a).isLE

/-- A lawful comparison decides the order that it puts things in. -/
theorem DecidesOrder.of_lt_iff {α : Type} {compare : α → α → Ordering} {before : α → α → Prop}
    [Std.LawfulEqCmp compare] [Std.TransCmp compare]
    (h : ∀ a b, compare a b = .lt ↔ before a b) : DecidesOrder compare before where
  lt_iff := h
  gt_iff a b := Std.OrientedCmp.gt_iff_lt.trans (h b a)
  eq_iff _ _ := Std.LawfulEqCmp.compare_eq_iff_eq
  refl _ := Std.ReflCmp.isLE_rfl
  antisymm _ _ hab hba := Std.LawfulEqCmp.eq_of_compare (Std.OrientedCmp.isLE_antisymm hab hba)
  trans _ _ _ hab hbc := Std.TransCmp.isLE_trans hab hbc
  total a b := by
    have hswap : compare b a = (compare a b).swap := Std.OrientedCmp.eq_swap
    rw [hswap]
    cases compare a b <;> simp

/-- Two lists of values have one canonical form exactly if they have the same members. -/
theorem Value.canonical_eq_iff {as bs : List Value} :
    canonical as = canonical bs ↔ ∀ x, x ∈ as ↔ x ∈ bs := by
  constructor
  · intro h x
    rw [← mem_canonical, h, mem_canonical]
  · intro h
    refine (ascending_canonical as).eq_of_mem_iff (ascending_canonical bs) fun x => ?_
    rw [mem_canonical, mem_canonical, h]

/-- Values and keys are totally ordered, compatibly with equality, however deeply they are
nested. So sorting and dropping repetitions makes one strictly ascending list of each finite
set of values, whatever the order and the number of times in which they are given. -/
theorem values_and_keys_ordered :
    DecidesOrder Value.compare Value.Before ∧
    DecidesOrder Key.compare Key.Before ∧
    (∀ values, (Value.canonical values).Pairwise Value.Before ∧
      ∀ x, x ∈ Value.canonical values ↔ x ∈ values) ∧
    ∀ as bs, Value.canonical as = Value.canonical bs ↔ ∀ x, x ∈ as ↔ x ∈ bs := by
  refine ⟨.of_lt_iff Value.compare_eq_lt_iff_before, .of_lt_iff Key.compare_eq_lt_iff_before,
    fun values => ⟨?_, fun x => Value.mem_canonical⟩, fun as bs => Value.canonical_eq_iff⟩
  exact (Value.ascending_canonical values).imp (Value.compare_eq_lt_iff_before _ _).1

end ConceptExpansion
