/-
# Depth, and how trees are taken apart

The nesting of a tree is the greatest number of arrays and objects that stand inside
each other. A reader that may enter a tree to some depth needs exactly its nesting, if it
has to enter all of the tree: with less it gives nothing, with more nothing else. Trees
that are written from data have no other members than those that are read, so that for
them this is so.

The lemmas below say for each way to take a tree apart what it gives on a tree that was
put together for it.
-/

import Mathlib
import ConceptExpansion.Json.Encoding

namespace ConceptExpansion

namespace Json

/-! ## Nesting -/

mutual

/-- How deeply arrays and objects are nested in a tree. -/
def nesting : Json → Nat
  | .array items => nestingOfItems items + 1
  | .object members => nestingOfMembers members + 1
  | _ => 0

/-- How deeply arrays and objects are nested in the items of an array. -/
def nestingOfItems : List Json → Nat
  | [] => 0
  | item :: rest => max item.nesting (nestingOfItems rest)

/-- How deeply arrays and objects are nested in the members of an object. -/
def nestingOfMembers : List (Option String × Json) → Nat
  | [] => 0
  | (_, json) :: rest => max json.nesting (nestingOfMembers rest)

end

example : (array [.null, ofMembers [("a", .array []), ("b", .null)]]).nesting = 3 := by decide

section Nesting

variable {depth : Nat} {items : List Json} {members : List (String × Json)}

theorem nestingOfItems_le :
    nestingOfItems items ≤ depth ↔ ∀ item ∈ items, item.nesting ≤ depth := by
  induction items with
  | nil => simp [nestingOfItems]
  | cons item items ih => simp [nestingOfItems, ih]

theorem nestingOfMembers_le {members : List (Option String × Json)} :
    nestingOfMembers members ≤ depth ↔ ∀ member ∈ members, member.2.nesting ≤ depth := by
  induction members with
  | nil => simp [nestingOfMembers]
  | cons member members ih => simp [nestingOfMembers, ih]

@[simp]
theorem nesting_array_le :
    (array items).nesting ≤ depth + 1 ↔ ∀ item ∈ items, item.nesting ≤ depth := by
  rw [nesting, Nat.add_le_add_iff_right, nestingOfItems_le]

@[simp]
theorem nesting_ofMembers_le :
    (ofMembers members).nesting ≤ depth + 1 ↔ ∀ member ∈ members, member.2.nesting ≤ depth := by
  rw [ofMembers, nesting, Nat.add_le_add_iff_right, nestingOfMembers_le, List.forall_mem_map]

@[simp]
theorem nesting_array_ne_zero : (array items).nesting ≠ 0 := by
  simp [nesting]

@[simp]
theorem nesting_ofMembers_ne_zero : (ofMembers members).nesting ≠ 0 := by
  simp [ofMembers, nesting]

@[simp]
theorem nesting_text (s : String) : (text s).nesting = 0 := by
  simp [text, nesting]

@[simp]
theorem nesting_bool (b : Bool) : (bool b).nesting = 0 := by
  simp [nesting]

@[simp]
theorem nesting_ofNat (n : Nat) : (ofNat n).nesting = 0 := by
  simp [ofNat, nesting]

@[simp]
theorem nesting_ofInt (i : Int) : (ofInt i).nesting = 0 := by
  simp [ofInt, nesting]

end Nesting

/-- `decode` gets `a` from the tree at every depth that reaches all of the tree, and
nothing at any other. -/
def Decodes {α : Type} (decode : Nat → Json → Option α) (json : Json) (a : α) : Prop :=
  ∀ depth, decode depth json = if json.nesting ≤ depth then some a else none

/-! ## Several parts -/

section Parts

variable {α β γ : Type} {encode : α → β} {decode : β → Option γ} {value : α → γ} {list : List α}

theorem bind_if {p : Prop} [Decidable p] {a : α} {f : α → Option β} :
    (if p then some a else none).bind f = if p then f a else none := by
  split <;> rfl

/-- A list is decoded item by item, and nothing of it if an item does not fit. -/
theorem mapM_map {fits : α → Prop} [DecidablePred fits]
    (h : ∀ a ∈ list, decode (encode a) = if fits a then some (value a) else none) :
    (list.map encode).mapM decode =
      if ∀ a ∈ list, fits a then some (list.map value) else none := by
  induction list with
  | nil => simp
  | cons a list ih =>
      obtain ⟨ha, hlist⟩ := List.forall_mem_cons.1 h
      rw [List.map_cons, List.mapM_cons, ha, ih hlist]
      simp only [List.forall_mem_cons]
      by_cases hfits : fits a
      · by_cases hrest : ∀ a ∈ list, fits a
        · rw [if_pos hfits, if_pos hrest, if_pos ⟨hfits, hrest⟩]
          rfl
        · rw [if_pos hfits, if_neg hrest, if_neg (not_and_of_not_right _ hrest)]
          rfl
      · rw [if_neg hfits, if_neg (not_and_of_not_left _ hfits)]
        rfl

theorem mapM_map_some (h : ∀ a ∈ list, decode (encode a) = some (value a)) :
    (list.map encode).mapM decode = some (list.map value) := by
  have hall := @mapM_map _ _ _ encode decode value list (fun _ => True) _ (by simpa using h)
  simpa using hall

end Parts

/-! ## Objects, records and names -/

@[simp]
theorem text?_text (s : String) : (text s).text? = some s := rfl

theorem alternative?_ofMembers (name : String) (content : Json) :
    (ofMembers [(name, content)]).alternative? = some (name, content) := rfl

theorem members?_ofMembers (members : List (String × Json)) :
    (ofMembers members).members? = some members := by
  have hall := @mapM_map_some _ _ _ (fun member : String × Json => (some member.1, member.2))
    (fun member => member.1.map fun name => (name, member.2)) id members fun _ _ => rfl
  rw [List.map_id] at hall
  exact hall

theorem only?_of_mem {members : List (String × Json)} (hnodup : (members.map (·.1)).Nodup)
    {member : String × Json} (h : member ∈ members) :
    only? member.1 members = some member.2 := by
  have hfilter : members.filter (·.1 = member.1) = [member] := by
    induction members with
    | nil => exact absurd h List.not_mem_nil
    | cons first members ih =>
        rw [List.map_cons, List.nodup_cons] at hnodup
        rcases List.mem_cons.1 h with rfl | h
        · rw [List.filter_cons_of_pos (by simp), List.filter_eq_nil_iff.2]
          intro other hother heq
          exact hnodup.1 (of_decide_eq_true heq ▸ List.mem_map_of_mem hother)
        · have hne : first.1 ≠ member.1 := fun heq => hnodup.1 (heq ▸ List.mem_map_of_mem h)
          rw [List.filter_cons_of_neg (by simpa using hne), ih hnodup.2 h]
  rw [only?, hfilter]

/-- A record that is written as an object is taken apart into its values. -/
theorem record?_ofMembers {members : List (String × Json)}
    (hnodup : (members.map (·.1)).Nodup) :
    (ofMembers members).record? (members.map (·.1)) = some (members.map (·.2)) := by
  show (ofMembers members).members?.bind
    (fun found => (members.map (·.1)).mapM fun field => only? field found) = _
  rw [members?_ofMembers, Option.bind_some]
  exact mapM_map_some fun member hmember => only?_of_mem hnodup hmember

/-- A list of names is read back. -/
theorem decodes_names (names : List String) :
    Decodes (fun depth json => json.names? depth) (.ofList .text names) names := by
  intro depth
  cases depth with
  | zero => simp [names?, ofList]
  | succ depth =>
      have hall := @mapM_map_some _ _ _ text text? id names fun _ _ => rfl
      rw [List.map_id] at hall
      rw [if_pos (by simp [ofList])]
      exact hall

/-! ## Integers -/

theorem natUpTo?_ofNat {limit n : Nat} (h : n ≤ limit) : (ofNat n).natUpTo? limit = some n :=
  if_pos h

/-- A 64-bit integer is read back, the least of them included. -/
theorem int64?_ofInt (i : Int64) : (ofInt i.toInt).int64? = some i := by
  have hlower := i.le_toInt
  have hupper := i.toInt_lt
  by_cases hnegative : i.toInt < 0
  · have hmagnitude : 0 < i.toInt.natAbs ∧ i.toInt.natAbs ≤ Nat.pow 2 63 := by
      constructor
      · omega
      · show i.toInt.natAbs ≤ 2 ^ 63
        omega
    have hopposite : -(i.toInt.natAbs : Int) = i.toInt := by omega
    simp only [ofInt, hnegative, decide_true, int64?]
    rw [if_pos hmagnitude, hopposite, Int64.ofInt_toInt]
  · have hmagnitude : i.toInt.natAbs < Nat.pow 2 63 := by
      show i.toInt.natAbs < 2 ^ 63
      omega
    have hsame : (i.toInt.natAbs : Int) = i.toInt := by omega
    simp only [ofInt, hnegative, decide_false, int64?]
    rw [if_pos hmagnitude, ← Int64.ofInt_eq_ofNat, hsame, Int64.ofInt_toInt]

end Json

end ConceptExpansion
