/-
# Attempts that agree

Two attempts agree if both succeed with related results or both fail with related
errors. Agreement goes through sequences and folds, which is how two runs that
go through the same motions are compared. One attempt follows another if it
succeeds, with a related result, wherever the other does; what it does where the
other fails is left open.
-/

import Mathlib
import ConceptExpansion.Run.Failure

namespace ConceptExpansion

/-- Both attempts succeed with related results, or both fail with related errors. -/
inductive Agree {ε α β : Type} (E : ε → ε → Prop) (R : α → β → Prop) :
    Except ε α → Except ε β → Prop
  | ok {a : α} {b : β} (h : R a b) : Agree E R (.ok a) (.ok b)
  | error {e e' : ε} (h : E e e') : Agree E R (.error e) (.error e')

namespace Agree

variable {ε α β γ δ : Type} {E : ε → ε → Prop} {R : α → β → Prop} {S : γ → δ → Prop}
  {x : Except ε α} {y : Except ε β}

theorem bind {f : α → Except ε γ} {g : β → Except ε δ} (h : Agree E R x y)
    (hnext : ∀ {a : α} {b : β}, R a b → Agree E S (f a) (g b)) :
    Agree E S (x >>= f) (y >>= g) := by
  cases h with
  | ok h => exact hnext h
  | error h => exact .error h

theorem symm {R : α → α → Prop} {x y : Except ε α} (hE : ∀ {e e' : ε}, E e e' → E e' e)
    (hR : ∀ {a b : α}, R a b → R b a) (h : Agree E R x y) : Agree E R y x := by
  cases h with
  | ok h => exact .ok (hR h)
  | error h => exact .error (hE h)

theorem trans {R : α → α → Prop} {x y z : Except ε α}
    (hE : ∀ {e e' e'' : ε}, E e e' → E e' e'' → E e e'')
    (hR : ∀ {a b c : α}, R a b → R b c → R a c) (hxy : Agree E R x y) (hyz : Agree E R y z) :
    Agree E R x z := by
  cases hxy with
  | ok h =>
      cases hyz with
      | ok h' => exact .ok (hR h h')
  | error h =>
      cases hyz with
      | error h' => exact .error (hE h h')

/-- Folds over one list agree if their steps do. -/
theorem foldlM {σ : Type} {f : α → σ → Except ε α} {g : β → σ → Except ε β} {l : List σ}
    (hstep : ∀ {a : α} {b : β}, ∀ s ∈ l, R a b → Agree E R (f a s) (g b s)) {a : α} {b : β}
    (h : R a b) : Agree E R (l.foldlM f a) (l.foldlM g b) := by
  induction l generalizing a b with
  | nil => exact .ok h
  | cons s l ih =>
      rw [List.foldlM_cons, List.foldlM_cons]
      apply bind (hstep s List.mem_cons_self h)
      intro a' b' h'
      exact ih (fun t ht => hstep t (List.mem_cons_of_mem _ ht)) h'

theorem of_ok {a : α} (h : Agree E R (.ok a) y) : ∃ b, y = .ok b ∧ R a b := by
  cases h with
  | ok h => exact ⟨_, rfl, h⟩

theorem of_error {e : ε} (h : Agree E R (.error e) y) : ∃ e', y = .error e' ∧ E e e' := by
  cases h with
  | error h => exact ⟨_, rfl, h⟩

theorem ok_or_error (h : Agree E R x y) :
    (∃ a b, x = .ok a ∧ y = .ok b ∧ R a b) ∨ ∃ e e', x = .error e ∧ y = .error e' ∧ E e e' := by
  cases h with
  | ok h => exact .inl ⟨_, _, rfl, rfl, h⟩
  | error h => exact .inr ⟨_, _, rfl, rfl, h⟩

/-- A sequence depends on its continuation only where its first part succeeds. -/
theorem bind_congr_ok {x : Except ε α} {f g : α → Except ε γ}
    (h : ∀ a, x = .ok a → f a = g a) : (x >>= f) = (x >>= g) := by
  cases x with
  | error e => rfl
  | ok a => exact h a rfl

end Agree

/-- The second attempt succeeds with a related result wherever the first
succeeds. -/
inductive Follows {ε α β : Type} (R : α → β → Prop) : Except ε α → Except ε β → Prop
  | ok {a : α} {b : β} (h : R a b) : Follows R (.ok a) (.ok b)
  | error {e : ε} {y : Except ε β} : Follows R (.error e) y

namespace Follows

variable {ε α β γ δ : Type} {R : α → β → Prop} {S : γ → δ → Prop} {x : Except ε α}
  {y : Except ε β}

theorem bind {f : α → Except ε γ} {g : β → Except ε δ} (h : Follows R x y)
    (hnext : ∀ {a : α} {b : β}, R a b → Follows S (f a) (g b)) :
    Follows S (x >>= f) (y >>= g) := by
  cases h with
  | ok h => exact hnext h
  | error => exact .error

theorem trans {R : α → α → Prop} {x y z : Except ε α} (hxy : Follows R x y)
    (hyz : Follows R y z) (hR : ∀ {a b c : α}, R a b → R b c → R a c) : Follows R x z := by
  cases hxy with
  | ok h =>
      cases hyz with
      | ok h' => exact .ok (hR h h')
  | error => exact .error

/-- A fold follows another over the same list if its steps do. -/
theorem foldlM {σ : Type} {f : α → σ → Except ε α} {g : β → σ → Except ε β} {l : List σ}
    {a : α} {b : β} (hstep : ∀ {a : α} {b : β} {s : σ}, R a b → Follows R (f a s) (g b s))
    (h : R a b) : Follows R (l.foldlM f a) (l.foldlM g b) := by
  induction l generalizing a b with
  | nil => exact .ok h
  | cons s l ih =>
      rw [List.foldlM_cons, List.foldlM_cons]
      exact bind (hstep h) ih

theorem of_ok {a : α} (h : Follows R (.ok a) y) : ∃ b, y = .ok b ∧ R a b := by
  cases h with
  | ok h => exact ⟨_, rfl, h⟩

end Follows

/-- An attempt follows one that it agrees with. -/
theorem Agree.follows {ε α β : Type} {E : ε → ε → Prop} {R S : α → β → Prop} {x : Except ε α}
    {y : Except ε β} (h : Agree E R x y) (himp : ∀ {a : α} {b : β}, R a b → S a b) :
    Follows S x y := by
  cases h with
  | ok h => exact .ok (himp h)
  | error => exact .error

/-! ## Errors that are alike -/

namespace ExpansionError

/-- The kinds of expansion errors. -/
inductive Variant where
  | duplicateKeyConflict
  | unresolvedReference
  | nonTerminating
  | ruleInvocation
  | capacityExceeded
  | invalidSeed
  | refused
  deriving DecidableEq

/-- The kind of an expansion error. -/
def variant : ExpansionError → Variant
  | duplicateKeyConflict _ => .duplicateKeyConflict
  | unresolvedReference _ _ _ => .unresolvedReference
  | nonTerminating _ _ => .nonTerminating
  | ruleInvocation _ _ _ => .ruleInvocation
  | capacityExceeded _ _ => .capacityExceeded
  | invalidSeed _ _ _ => .invalidSeed
  | refused _ => .refused

/-- The errors are of one kind and point to one concept. -/
structure Alike (a b : ExpansionError) : Prop where
  variant : a.variant = b.variant
  concept? : a.concept? = b.concept?

namespace Alike

theorem refl (a : ExpansionError) : Alike a a := ⟨rfl, rfl⟩

theorem symm {a b : ExpansionError} (h : Alike a b) : Alike b a :=
  ⟨h.variant.symm, h.concept?.symm⟩

theorem trans {a b c : ExpansionError} (hab : Alike a b) (hbc : Alike b c) : Alike a c :=
  ⟨hab.variant.trans hbc.variant, hab.concept?.trans hbc.concept?⟩

end Alike

end ExpansionError

end ConceptExpansion
