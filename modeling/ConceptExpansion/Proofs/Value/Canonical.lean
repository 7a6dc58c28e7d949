/-
# Strictly ascending lists stand for finite sets

Sorting and then dropping repetitions turns a list of values into the one
strictly ascending list with the same members. The union of two cumulative
values is written in this form, so a value in this form is determined by what
it contributes, and uniting it with something it already contains gives it
back unchanged.
-/

import Mathlib
import ConceptExpansion.Store.Admission

namespace ConceptExpansion

/-! ## Dropping repetitions -/

section EraseReps

variable {α : Type} [DecidableEq α]

theorem eraseReps_loop (last : α) (rest done : List α) :
    List.eraseRepsBy.loop (· == ·) last rest done =
      done.reverse ++ List.eraseRepsBy.loop (· == ·) last rest [] := by
  induction rest generalizing last done with
  | nil => simp [List.eraseRepsBy.loop]
  | cons next rest ih =>
      simp only [List.eraseRepsBy.loop]
      split
      · exact ih last done
      · rw [ih next (last :: done), ih next [last]]
        simp

theorem eraseReps_cons_cons (a b : α) (rest : List α) :
    (a :: b :: rest).eraseReps =
      if a = b then (b :: rest).eraseReps else a :: (b :: rest).eraseReps := by
  show List.eraseRepsBy.loop (· == ·) a (b :: rest) [] = _
  simp only [List.eraseRepsBy.loop]
  split
  · next heq =>
      rw [if_pos (eq_of_beq heq), eq_of_beq heq]
      rfl
  · next hne =>
      rw [if_neg (ne_of_beq_false hne), eraseReps_loop b rest [a]]
      rfl

/-- Dropping repetitions loses no member. -/
theorem mem_eraseReps {x : α} {list : List α} : x ∈ list.eraseReps ↔ x ∈ list := by
  induction list with
  | nil => rfl
  | cons a rest ih =>
      cases rest with
      | nil => rfl
      | cons b rest =>
          rw [eraseReps_cons_cons]
          split
          · next heq =>
              rw [ih, heq]
              simp
          · rw [List.mem_cons, ih, List.mem_cons (a := x) (b := a)]

/-- In an ascending list equal members are neighbours, so none is left twice. -/
theorem pairwise_eraseReps {le : α → α → Prop} {list : List α}
    (hantisymm : ∀ a b, le a b → le b a → a = b) (hascending : list.Pairwise le) :
    list.eraseReps.Pairwise fun a b => le a b ∧ a ≠ b := by
  induction list with
  | nil => exact .nil
  | cons a rest ih =>
      obtain ⟨hfirst, hrest⟩ := List.pairwise_cons.1 hascending
      cases rest with
      | nil => exact List.pairwise_singleton _ _
      | cons b rest =>
          rw [eraseReps_cons_cons]
          split
          · exact ih hrest
          · next hne =>
              refine List.pairwise_cons.2 ⟨fun x hx => ?_, ih hrest⟩
              have hx := mem_eraseReps.1 hx
              refine ⟨hfirst x hx, fun hax => hne ?_⟩
              -- `b` stands between `a` and the later copy of `a`.
              have hbx : x = b ∨ le b x :=
                (List.mem_cons.1 hx).imp id ((List.pairwise_cons.1 hrest).1 x)
              subst hax
              exact hbx.elim id fun hba => hantisymm a b (hfirst b List.mem_cons_self) hba

end EraseReps

namespace Value

theorem atMost_trans (a b c : Value) (hab : a.atMost b) (hbc : b.atMost c) : a.atMost c :=
  (inferInstance : Std.TransCmp compare).isLE_trans hab hbc

theorem atMost_total (a b : Value) : a.atMost b || b.atMost a := by
  unfold atMost
  rw [compare_swap b a]
  cases compare a b <;> rfl

theorem atMost_antisymm (a b : Value) (hab : a.atMost b) (hba : b.atMost a) : a = b :=
  eq_of_compare_eq ((inferInstance : Std.OrientedCmp compare).isLE_antisymm hab hba)

theorem compare_eq_lt_iff (a b : Value) : a.compare b = .lt ↔ a.atMost b ∧ a ≠ b := by
  unfold atMost
  constructor
  · intro hlt
    refine ⟨by rw [hlt]; rfl, fun heq => ?_⟩
    rw [heq, compare_self] at hlt
    cases hlt
  · rintro ⟨hle, hne⟩
    rcases Ordering.isLE_iff_eq_lt_or_eq_eq.1 hle with hlt | heq
    · exact hlt
    · exact absurd (eq_of_compare_eq heq) hne

/-- The values ascend strictly. -/
def Ascending (values : List Value) : Prop :=
  values.Pairwise fun a b => a.compare b = .lt

theorem mem_canonical {x : Value} {values : List Value} : x ∈ canonical values ↔ x ∈ values := by
  rw [canonical, mem_eraseReps, sort, List.mem_mergeSort]

theorem ascending_canonical (values : List Value) : Ascending (canonical values) := by
  have hsorted : (sort values).Pairwise fun a b => a.atMost b :=
    List.pairwise_mergeSort atMost_trans atMost_total values
  exact (pairwise_eraseReps atMost_antisymm hsorted).imp fun h =>
    (compare_eq_lt_iff _ _).2 h

/-- A strictly ascending list is determined by its members. -/
theorem Ascending.eq_of_mem_iff {as bs : List Value} (ha : Ascending as) (hb : Ascending bs)
    (h : ∀ x, x ∈ as ↔ x ∈ bs) : as = bs := by
  have hnodup : ∀ {values : List Value}, Ascending values → values.Nodup := fun hasc =>
    hasc.imp fun hlt => ((compare_eq_lt_iff _ _).1 hlt).2
  have hperm : as.Perm bs := (List.perm_ext_iff_of_nodup (hnodup ha) (hnodup hb)).2 h
  refine hperm.eq_of_pairwise (fun x y _ _ hxy hyx => ?_) ha hb
  exact atMost_antisymm x y ((compare_eq_lt_iff _ _).1 hxy).1 ((compare_eq_lt_iff _ _).1 hyx).1

/-! ## Cumulative values -/

/-- The value is written as a finite set: as a strictly ascending list. -/
def IsSet (value : Value) : Prop :=
  ∃ items, value = .list items ∧ Ascending items

theorem isSet_union (a b : Value) : (a.union b).IsSet :=
  ⟨_, rfl, ascending_canonical _⟩

theorem mem_contributions_union {x a b : Value} :
    x ∈ (a.union b).contributions ↔ x ∈ a.contributions ∨ x ∈ b.contributions := by
  show x ∈ canonical (a.contributions ++ b.contributions) ↔ _
  rw [mem_canonical, List.mem_append]

/-- Of two sets that contribute the same there is only one. -/
theorem IsSet.eq_of_contributions {a b : Value} (ha : a.IsSet) (hb : b.IsSet)
    (h : ∀ x, x ∈ a.contributions ↔ x ∈ b.contributions) : a = b := by
  obtain ⟨as, rfl, hasc⟩ := ha
  obtain ⟨bs, rfl, hbsc⟩ := hb
  rw [hasc.eq_of_mem_iff hbsc h]

end Value

/-! ## Keys in order -/

namespace Key

theorem atMost_trans (a b c : Key) (hab : a.atMost b) (hbc : b.atMost c) : a.atMost c :=
  Value.atMost_trans a.toValue b.toValue c.toValue hab hbc

theorem atMost_total (a b : Key) : a.atMost b || b.atMost a :=
  Value.atMost_total a.toValue b.toValue

theorem atMost_refl (a : Key) : a.atMost a :=
  (Bool.or_self _).symm.trans (atMost_total a a)

theorem atMost_antisymm (a b : Key) (hab : a.atMost b) (hba : b.atMost a) : a = b :=
  toValue_injective (Value.atMost_antisymm a.toValue b.toValue hab hba)

theorem atMost_of_lt {a b : Key} (h : a.compare b = .lt) : a.atMost b := by
  rw [atMost, h]
  rfl

end Key

end ConceptExpansion
