/-
# The order of values and keys

Values of different types are ordered by type, `null` first and lists last;
values of one type as their type suggests, texts by code point and lists
lexicographically. Keys compare by kind and then by fields.

The order is linear and agrees with equality, so it serves three purposes at
once: it decides equality, it makes keys fit to index ordered maps, and sorting
followed by dropping repetitions gives one canonical list for every finite set
of values.
-/

import ConceptExpansion.Value.Basic

namespace ConceptExpansion

namespace Value

/-- The position of the value's type in the order of types. -/
def rank : Value → Nat
  | null => 0
  | bool _ => 1
  | int _ => 2
  | string _ => 3
  | ref _ _ => 4
  | list _ => 5

mutual

/-- Compares two values. -/
def compare : Value → Value → Ordering
  | null, null => .eq
  | bool a, bool b => Ord.compare a b
  | int a, int b => Ord.compare a.toInt b.toInt
  | string a, string b => Ord.compare a b
  | ref kind fields, ref kind' fields' =>
    (Ord.compare kind kind').then (compareAll fields fields')
  | list items, list items' => compareAll items items'
  | a, b => Ord.compare a.rank b.rank

/-- Compares two lists of values lexicographically; a proper initial part comes
first. -/
def compareAll : List Value → List Value → Ordering
  | [], [] => .eq
  | [], _ :: _ => .lt
  | _ :: _, [] => .gt
  | a :: as, b :: bs => (compare a b).then (compareAll as bs)

end

instance : Ord Value := ⟨compare⟩

/-! ### The comparison answers `eq` exactly on equal arguments -/

mutual

theorem compare_self : ∀ a : Value, compare a a = .eq
  | null => by simp [compare]
  | bool _ => by simp [compare]
  | int _ => by simp [compare]
  | string _ => by simp [compare]
  | ref _ fields => by simp [compare, compareAll_self fields]
  | list items => by simp [compare, compareAll_self items]

theorem compareAll_self : ∀ as : List Value, compareAll as as = .eq
  | [] => by simp [compareAll]
  | a :: as => by simp [compareAll, compare_self a, compareAll_self as]

end

mutual

theorem eq_of_compare_eq : ∀ {a b : Value}, compare a b = .eq → a = b
  | null, b, h => by cases b <;> simp [compare, rank] at h ⊢
  | bool x, b, h => by
    cases b <;> simp [compare, rank] at h ⊢
    exact h
  | int x, b, h => by
    cases b <;> simp [compare, rank] at h ⊢
    exact Int64.toInt_inj.1 h
  | string x, b, h => by
    cases b <;> simp [compare, rank] at h ⊢
    exact h
  | ref kind fields, b, h => by
    cases b with
    | ref kind' fields' =>
      simp only [compare, Ordering.then_eq_eq] at h
      rw [Std.LawfulEqCmp.eq_of_compare h.1, eq_of_compareAll_eq h.2]
    | _ => simp [compare, rank] at h
  | list items, b, h => by
    cases b with
    | list items' =>
      simp only [compare] at h
      rw [eq_of_compareAll_eq h]
    | _ => simp [compare, rank] at h

theorem eq_of_compareAll_eq : ∀ {as bs : List Value}, compareAll as bs = .eq → as = bs
  | [], [], _ => rfl
  | [], _ :: _, h => by simp [compareAll] at h
  | _ :: _, [], h => by simp [compareAll] at h
  | a :: as, b :: bs, h => by
    simp only [compareAll, Ordering.then_eq_eq] at h
    rw [eq_of_compare_eq h.1, eq_of_compareAll_eq h.2]

end

/-! ### Exchanging the arguments exchanges the answer -/

mutual

theorem compare_swap : ∀ a b : Value, compare a b = (compare b a).swap
  | null, b => by cases b <;> simp [compare, rank, Nat.compare_swap]
  | bool x, b => by
    cases b <;> simp [compare, rank, Nat.compare_swap]
    exact Std.OrientedCmp.eq_swap
  | int x, b => by
    cases b <;> simp [compare, rank, Nat.compare_swap]
    exact Std.OrientedCmp.eq_swap
  | string x, b => by
    cases b <;> simp [compare, rank, Nat.compare_swap]
    exact Std.OrientedCmp.eq_swap
  | ref kind fields, b => by
    cases b with
    | ref kind' fields' =>
      simp only [compare, Ordering.swap_then]
      rw [compareAll_swap fields fields',
        show Ord.compare kind kind' = (Ord.compare kind' kind).swap from Std.OrientedCmp.eq_swap]
    | _ => simp [compare, rank, Nat.compare_swap]
  | list items, b => by
    cases b with
    | list items' =>
      simp only [compare]
      exact compareAll_swap items items'
    | _ => simp [compare, rank, Nat.compare_swap]

theorem compareAll_swap : ∀ as bs : List Value, compareAll as bs = (compareAll bs as).swap
  | [], [] => by simp [compareAll]
  | [], _ :: _ => by simp [compareAll]
  | _ :: _, [] => by simp [compareAll]
  | a :: as, b :: bs => by
    simp only [compareAll, Ordering.swap_then]
    rw [compare_swap a b, compareAll_swap as bs]

end

/-! ### Transitivity -/

mutual

theorem compare_lt_trans : ∀ {a b c : Value},
    compare a b = .lt → compare b c = .lt → compare a c = .lt
  | null, b, c, h₁, h₂ => by
    cases b <;> cases c <;> simp_all [compare, rank, Nat.compare_eq_lt]
  | bool _, b, c, h₁, h₂ => by
    cases b <;> cases c <;> simp_all [compare, rank, Nat.compare_eq_lt]
    exact Std.TransCmp.lt_trans h₁ h₂
  | int _, b, c, h₁, h₂ => by
    cases b <;> cases c <;> simp_all [compare, rank, Nat.compare_eq_lt]
    exact Std.TransCmp.lt_trans h₁ h₂
  | string _, b, c, h₁, h₂ => by
    cases b <;> cases c <;> simp_all [compare, rank, Nat.compare_eq_lt]
    exact Std.TransCmp.lt_trans h₁ h₂
  | ref kind fields, b, c, h₁, h₂ => by
    cases b <;> cases c <;> try simp_all [compare, rank, Nat.compare_eq_lt]; done
    case ref.ref kind' fields' kind'' fields'' =>
      simp only [compare, Ordering.then_eq_lt] at h₁ h₂ ⊢
      rcases h₁ with h₁ | ⟨e₁, h₁⟩ <;> rcases h₂ with h₂ | ⟨e₂, h₂⟩
      · exact .inl (Std.TransCmp.lt_trans h₁ h₂)
      · exact .inl (Std.LawfulEqCmp.eq_of_compare e₂ ▸ h₁)
      · exact .inl (Std.LawfulEqCmp.eq_of_compare e₁ ▸ h₂)
      · exact .inr ⟨Std.LawfulEqCmp.eq_of_compare e₁ ▸ e₂, compareAll_lt_trans h₁ h₂⟩
  | list items, b, c, h₁, h₂ => by
    cases b <;> cases c <;> try simp_all [compare, rank, Nat.compare_eq_lt]; done
    case list.list items' items'' =>
      simp only [compare] at h₁ h₂ ⊢
      exact compareAll_lt_trans h₁ h₂

theorem compareAll_lt_trans : ∀ {as bs cs : List Value},
    compareAll as bs = .lt → compareAll bs cs = .lt → compareAll as cs = .lt
  | [], [], _, h₁, _ => by simp [compareAll] at h₁
  | [], _ :: _, [], _, h₂ => by simp [compareAll] at h₂
  | [], _ :: _, _ :: _, _, _ => by simp [compareAll]
  | _ :: _, [], _, h₁, _ => by simp [compareAll] at h₁
  | _ :: _, _ :: _, [], _, h₂ => by simp [compareAll] at h₂
  | a :: as, b :: bs, c :: cs, h₁, h₂ => by
    simp only [compareAll, Ordering.then_eq_lt] at h₁ h₂ ⊢
    rcases h₁ with h₁ | ⟨e₁, h₁⟩ <;> rcases h₂ with h₂ | ⟨e₂, h₂⟩
    · exact .inl (compare_lt_trans h₁ h₂)
    · exact .inl (eq_of_compare_eq e₂ ▸ h₁)
    · exact .inl (eq_of_compare_eq e₁ ▸ h₂)
    · exact .inr ⟨eq_of_compare_eq e₁ ▸ e₂, compareAll_lt_trans h₁ h₂⟩

end

instance : Std.LawfulEqCmp compare where
  compare_self := compare_self _
  eq_of_compare := eq_of_compare_eq

instance : Std.TransCmp compare where
  eq_swap := compare_swap _ _
  isLE_trans {a b c} h₁ h₂ := by
    rw [Ordering.isLE_iff_eq_lt_or_eq_eq] at h₁ h₂ ⊢
    rcases h₁ with h₁ | h₁ <;> rcases h₂ with h₂ | h₂
    · exact .inl (compare_lt_trans h₁ h₂)
    · exact .inl (eq_of_compare_eq h₂ ▸ h₁)
    · exact .inl (eq_of_compare_eq h₁ ▸ h₂)
    · exact .inr (eq_of_compare_eq h₁ ▸ h₂)

instance : Std.LawfulEqOrd Value := inferInstanceAs (Std.LawfulEqCmp compare)

instance : Std.TransOrd Value := inferInstanceAs (Std.TransCmp compare)

/-- Equality of values is decided by comparing them. -/
instance : DecidableEq Value := fun a b =>
  decidable_of_iff (compare a b = .eq) ⟨eq_of_compare_eq, fun h => h ▸ compare_self a⟩

/-- Whether the first value is at most the second. -/
def atMost (a b : Value) : Bool :=
  (compare a b).isLE

/-- The values in ascending order, repetitions kept. -/
def sort (values : List Value) : List Value :=
  values.mergeSort atMost

/-- The values in ascending order without repetitions: one list for each
finite set of values. -/
def canonical (values : List Value) : List Value :=
  (sort values).eraseReps

example : canonical [.int 2, .null, .int 2, .bool true] = [.null, .bool true, .int 2] := by
  cbv

end Value

namespace Key

/-- Compares two keys, by kind and then by fields. -/
def compare (a b : Key) : Ordering :=
  (Ord.compare a.kind b.kind).then (Value.compareAll a.fields b.fields)

instance : Ord Key := ⟨compare⟩

/-- Keys compare as the references to them do. -/
theorem compare_toValue (a b : Key) : Value.compare a.toValue b.toValue = compare a b := by
  simp [toValue, Value.compare, compare]

theorem toValue_injective {a b : Key} (h : a.toValue = b.toValue) : a = b := by
  cases a
  cases b
  simpa [toValue] using h

instance : Std.LawfulEqCmp compare where
  compare_self {a} := by rw [← compare_toValue]; exact Value.compare_self _
  eq_of_compare {a b} h := by
    rw [← compare_toValue] at h
    exact toValue_injective (Value.eq_of_compare_eq h)

instance : Std.TransCmp compare where
  eq_swap {a b} := by
    rw [← compare_toValue, ← compare_toValue]
    exact Value.compare_swap _ _
  isLE_trans {a b c} h₁ h₂ := by
    rw [← compare_toValue] at h₁ h₂ ⊢
    exact (inferInstance : Std.TransCmp Value.compare).isLE_trans h₁ h₂

instance : Std.LawfulEqOrd Key := inferInstanceAs (Std.LawfulEqCmp compare)

instance : Std.TransOrd Key := inferInstanceAs (Std.TransCmp compare)

/-- Equality of keys is decided by comparing them. -/
instance : DecidableEq Key := fun a b =>
  decidable_of_iff (compare a b = .eq)
    ⟨Std.LawfulEqCmp.eq_of_compare, fun h => h ▸ Std.ReflCmp.compare_self⟩

/-- Whether the first key is at most the second. -/
def atMost (a b : Key) : Bool :=
  (compare a b).isLE

end Key

end ConceptExpansion
