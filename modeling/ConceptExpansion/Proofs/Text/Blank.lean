/-
# What is left between the blanks

A text is blanks, a core that neither starts nor ends with a blank, and blanks again.
There is one such core, and trimming finds it.
-/

import Mathlib
import ConceptExpansion.Text.Blank

namespace ConceptExpansion.Text

/-- Without the blanks at either end, `core` is left of the text. -/
inductive Trims (text core : List Char) : Prop
  | intro (before after : List Char) (htext : text = before ++ (core ++ after))
      (hbefore : ∀ c ∈ before, isBlank c) (hafter : ∀ c ∈ after, isBlank c)
      (hfirst : ∀ c ∈ core.head?, isBlank c = false)
      (hlast : ∀ c ∈ core.getLast?, isBlank c = false)

section DropWhile

variable {α : Type} {p : α → Bool}

theorem eq_false_of_mem_head?_dropWhile (list : List α) :
    ∀ x ∈ (list.dropWhile p).head?, p x = false := by
  intro x hx
  have hfirst := List.head?_dropWhile_not p list
  rw [Option.mem_def.1 hx] at hfirst
  exact hfirst

theorem dropWhile_append_of_head? {before rest : List α} (hbefore : ∀ x ∈ before, p x)
    (hfirst : ∀ x ∈ rest.head?, p x = false) : (before ++ rest).dropWhile p = rest := by
  rw [List.dropWhile_append_of_pos hbefore]
  cases rest with
  | nil => rfl
  | cons x rest => exact List.dropWhile_cons_of_neg (by simp [hfirst x rfl])

end DropWhile

theorem Trims.trim_eq {text core : List Char} (h : Trims text core) : trim text = core := by
  obtain ⟨before, after, rfl, hbefore, hafter, hfirst, hlast⟩ := h
  cases core with
  | nil =>
      -- All of the text is blank, and the first sweep leaves nothing for the second.
      have hblank : (before ++ ([] ++ after)).dropWhile isBlank = [] := by
        rw [List.dropWhile_append_of_pos hbefore]
        exact List.dropWhile_eq_nil_iff.2 hafter
      rw [trim, hblank]
      rfl
  | cons c rest =>
      have hleft : (before ++ (c :: rest ++ after)).dropWhile isBlank = c :: rest ++ after :=
        dropWhile_append_of_head? hbefore hfirst
      have hright : (c :: rest ++ after).reverse.dropWhile isBlank = (c :: rest).reverse := by
        rw [List.reverse_append]
        refine dropWhile_append_of_head? (fun d hd => hafter d (List.mem_reverse.1 hd)) ?_
        rwa [List.head?_reverse]
      rw [trim, hleft, hright, List.reverse_reverse]

theorem trims_trim (text : List Char) : Trims text (trim text) := by
  let rest := text.dropWhile isBlank
  let after := (rest.reverse.takeWhile isBlank).reverse
  have hrest : rest = trim text ++ after := by
    show rest = (rest.reverse.dropWhile isBlank).reverse ++ (rest.reverse.takeWhile isBlank).reverse
    rw [← List.reverse_append, List.takeWhile_append_dropWhile, List.reverse_reverse]
  have htext : text = text.takeWhile isBlank ++ (trim text ++ after) := by
    rw [← hrest, List.takeWhile_append_dropWhile]
  have hfirst : ∀ c ∈ (trim text).head?, isBlank c = false := by
    intro c hc
    refine eq_false_of_mem_head?_dropWhile text c ?_
    show c ∈ rest.head?
    rw [hrest, List.head?_append, hc]
    rfl
  have hlast : ∀ c ∈ (trim text).getLast?, isBlank c = false := by
    rw [trim, List.getLast?_reverse]
    exact eq_false_of_mem_head?_dropWhile _
  exact .intro _ _ htext (fun c hc => List.mem_takeWhile_imp hc)
    (fun c hc => List.mem_takeWhile_imp (List.mem_reverse.1 hc)) hfirst hlast

/-- Trimming finds the one core of a text. -/
theorem trims_iff {text core : List Char} : Trims text core ↔ trim text = core :=
  ⟨Trims.trim_eq, fun h => h ▸ trims_trim text⟩

end ConceptExpansion.Text
