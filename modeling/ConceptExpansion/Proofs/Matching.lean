/-
# Lists that match up to order

Two lists match if the members of one can be brought into an order in which they
are related, one by one, to those of the other. What is computed from matching
lists member by member matches again.
-/

import Mathlib.Data.List.Perm.Basic

namespace ConceptExpansion

variable {α β γ δ : Type} {R : α → β → Prop} {S : γ → δ → Prop} {l k : List α} {l' k' : List β}

/-- In some order the members of the first list are related to those of the
second. -/
def Matches (R : α → β → Prop) (l : List α) (l' : List β) : Prop :=
  ∃ m, l.Perm m ∧ List.Forall₂ R m l'

namespace Matches

theorem nil : Matches R [] [] :=
  ⟨[], .nil, .nil⟩

theorem of_forall₂ (h : List.Forall₂ R l l') : Matches R l l' :=
  ⟨l, .refl l, h⟩

theorem perm_left (hperm : k.Perm l) (h : Matches R l l') : Matches R k l' := by
  obtain ⟨m, hm, hrelated⟩ := h
  exact ⟨m, hperm.trans hm, hrelated⟩

theorem perm_right (h : Matches R l l') (hperm : l'.Perm k') : Matches R l k' := by
  obtain ⟨m, hm, hrelated⟩ := h
  have hcomp : Relation.Comp (List.Forall₂ R) List.Perm m k' := ⟨l', hrelated, hperm⟩
  rw [List.forall₂_comp_perm_eq_perm_comp_forall₂] at hcomp
  obtain ⟨n, hn, hrelated'⟩ := hcomp
  exact ⟨n, hm.trans hn, hrelated'⟩

theorem append (h : Matches R l l') (h' : Matches R k k') : Matches R (l ++ k) (l' ++ k') := by
  obtain ⟨m, hm, hrelated⟩ := h
  obtain ⟨n, hn, hrelated'⟩ := h'
  exact ⟨m ++ n, hm.append hn, List.rel_append hrelated hrelated'⟩

theorem length_eq (h : Matches R l l') : l.length = l'.length := by
  obtain ⟨m, hm, hrelated⟩ := h
  exact hm.length_eq.trans hrelated.length_eq

theorem eq_nil_iff (h : Matches R l l') : l = [] ↔ l' = [] := by
  rw [← List.length_eq_zero_iff, h.length_eq, List.length_eq_zero_iff]

theorem exists_left (h : Matches R l l') {b : β} (hb : b ∈ l') : ∃ a ∈ l, R a b := by
  obtain ⟨m, hm, hrelated⟩ := h
  induction hrelated generalizing l with
  | nil => cases hb
  | @cons a b' m l' hab _ ih =>
      rcases List.mem_cons.1 hb with rfl | hb
      · exact ⟨a, hm.mem_iff.2 List.mem_cons_self, hab⟩
      · obtain ⟨a', ha', hrelated⟩ := ih hb (.refl m)
        exact ⟨a', hm.mem_iff.2 (List.mem_cons_of_mem _ ha'), hrelated⟩

theorem imp {Q : α → β → Prop} (h : Matches R l l') (himp : ∀ a ∈ l, ∀ b, R a b → Q a b) :
    Matches Q l l' := by
  obtain ⟨m, hm, hall⟩ := h
  refine ⟨m, hm, ?_⟩
  replace himp : ∀ a ∈ m, ∀ b, R a b → Q a b := fun a ha => himp a (hm.mem_iff.2 ha)
  clear hm
  induction hall with
  | nil => exact .nil
  | cons hab _ ih =>
      refine .cons (himp _ List.mem_cons_self _ hab) ?_
      exact ih fun a ha => himp a (List.mem_cons_of_mem _ ha)

theorem flatMap {f : α → List γ} {g : β → List δ} (h : Matches R l l')
    (hrelated : ∀ {a b}, R a b → Matches S (f a) (g b)) :
    Matches S (l.flatMap f) (l'.flatMap g) := by
  obtain ⟨m, hm, hall⟩ := h
  apply perm_left (hm.flatMap_right f)
  clear hm
  induction hall with
  | nil => exact nil
  | cons hab _ ih =>
      rw [List.flatMap_cons, List.flatMap_cons]
      exact (hrelated hab).append ih

theorem eq_iff_perm {l k : List α} : Matches Eq l k ↔ l.Perm k := by
  constructor
  · rintro ⟨m, hm, hall⟩
    rw [List.forall₂_eq_eq_eq] at hall
    exact hall ▸ hm
  · intro hperm
    exact ⟨k, hperm, List.forall₂_same.2 fun _ _ => rfl⟩

/-- What matching lists are turned into, member by member, is the same up to
order. -/
theorem flatMap_perm {f : α → List γ} {g : β → List γ}
    (h : Matches (fun a b => (f a).Perm (g b)) l l') : (l.flatMap f).Perm (l'.flatMap g) :=
  eq_iff_perm.1 (h.flatMap eq_iff_perm.2)

theorem map {f : α → γ} {g : β → δ} (h : Matches R l l')
    (hrelated : ∀ {a b}, R a b → S (f a) (g b)) : Matches S (l.map f) (l'.map g) := by
  obtain ⟨m, hm, hall⟩ := h
  refine ⟨m.map f, hm.map f, ?_⟩
  rw [List.forall₂_map_left_iff, List.forall₂_map_right_iff]
  exact hall.imp fun _ _ => hrelated

theorem filter {p : α → Bool} {q : β → Bool} (h : Matches R l l')
    (hrelated : ∀ {a b}, R a b → p a = q b) : Matches R (l.filter p) (l'.filter q) := by
  obtain ⟨m, hm, hall⟩ := h
  refine ⟨m.filter p, hm.filter p, List.rel_filter (fun a b hab => ?_) hall⟩
  exact Bool.eq_iff_iff.1 (hrelated hab)

/-- Lists match if they look the same up to order. -/
theorem of_map_perm {f : α → γ} {g : β → γ} (h : (l.map f).Perm (l'.map g)) :
    Matches (fun a b => f a = g b) l l' := by
  have hleft : Matches (fun a c => f a = c) l (l'.map g) := by
    apply perm_right _ h
    apply of_forall₂
    rw [List.forall₂_map_right_iff, List.forall₂_same]
    exact fun _ _ => rfl
  obtain ⟨m, hm, hall⟩ := hleft
  rw [List.forall₂_map_right_iff] at hall
  exact ⟨m, hm, hall⟩

end Matches

end ConceptExpansion
