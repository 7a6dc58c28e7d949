/-
# References, at any depth

A value mentions a key if it is a reference to it, or a list with an item that
mentions it. The key fields of a key that is referred to are left alone, so what a
value mentions is what it refers to itself. A key mentions what its fields mention. The
mentioned keys are exactly those that `Value.refs` and `Key.refs` list.

A key is larger than every key that it mentions, so nothing that follows key references
from concept to concept can go on for ever.
-/

import ConceptExpansion.Proofs.NameMap
import ConceptExpansion.Concept

namespace ConceptExpansion

namespace Value

variable {target : Key} {value : Value} {values : List Value}

/-- The value refers to the key, itself or in an item at any depth. -/
inductive Mentions (target : Key) : Value → Prop
  | ref : Mentions target (.ref target.kind target.fields)
  | item {value : Value} {items : List Value} (hitem : value ∈ items)
      (h : Mentions target value) : Mentions target (.list items)

theorem mem_refsOfAll_iff : target ∈ refsOfAll values ↔ ∃ value ∈ values, target ∈ value.refs := by
  induction values with
  | nil => simp [refsOfAll]
  | cons value values ih => simp [refsOfAll, ih]

theorem mentions_of_mem_refs (value : Value) (h : target ∈ value.refs) :
    value.Mentions target := by
  match value with
  | ref kind fields =>
      obtain rfl : target = ⟨kind, fields⟩ := List.mem_singleton.1 h
      exact .ref
  | list items =>
      obtain ⟨item, hitem, h⟩ := mem_refsOfAll_iff.1 h
      exact .item hitem (mentions_of_mem_refs item h)
termination_by sizeOf value
decreasing_by
  have hlt := List.sizeOf_lt_of_mem hitem
  simp only [list.sizeOf_spec]
  omega

/-- The references of a value are the keys that it mentions. -/
theorem mem_refs_iff : target ∈ value.refs ↔ value.Mentions target := by
  refine ⟨mentions_of_mem_refs value, fun h => ?_⟩
  induction h with
  | ref => exact List.mem_singleton.2 rfl
  | item hitem _ ih => exact mem_refsOfAll_iff.2 ⟨_, hitem, ih⟩

theorem Mentions.sizeOf_le (h : value.Mentions target) : sizeOf target ≤ sizeOf value := by
  induction h with
  | ref =>
      cases target
      simp only [ref.sizeOf_spec, Key.mk.sizeOf_spec, le_refl]
  | item hitem _ ih =>
      have hlt := List.sizeOf_lt_of_mem hitem
      simp only [list.sizeOf_spec]
      omega

end Value

namespace Key

variable {key target : Key}

/-- A key field of the key refers to the target, itself or in a list at any depth. -/
def Mentions (key target : Key) : Prop :=
  ∃ value ∈ key.fields, value.Mentions target

/-- The references of a key are the keys that it mentions. -/
theorem mem_refs_iff : target ∈ key.refs ↔ key.Mentions target := by
  simp only [refs, Mentions, Value.mem_refsOfAll_iff, Value.mem_refs_iff]

/-- A key is larger than the keys that it mentions. -/
theorem Mentions.sizeOf_lt (h : key.Mentions target) : sizeOf target < sizeOf key := by
  obtain ⟨value, hvalue, h⟩ := h
  have hle := h.sizeOf_le
  have hlt := List.sizeOf_lt_of_mem hvalue
  have hkey : sizeOf key = 1 + sizeOf key.kind + sizeOf key.fields := by cases key; rfl
  omega

end Key

namespace Concept

variable {concept : Concept} {target : Key}

/-- A key field or an attribute of the concept refers to the key, at any depth. -/
def Mentions (concept : Concept) (target : Key) : Prop :=
  (∃ value ∈ concept.fields, value.Mentions target) ∨
    ∃ name value, concept.attribute? name = some value ∧ value.Mentions target

/-- The key references of a concept are those of its key. -/
theorem keyRefs_eq (concept : Concept) : concept.keyRefs = concept.key.refs := rfl

theorem mem_keyRefs_iff :
    target ∈ concept.keyRefs ↔ ∃ value ∈ concept.fields, value.Mentions target := by
  rw [keyRefs_eq, Key.mem_refs_iff]
  rfl

theorem mem_payloadRefs_iff : target ∈ concept.payloadRefs ↔
    ∃ name value, concept.attribute? name = some value ∧ value.Mentions target := by
  unfold payloadRefs attribute? NameMap.values
  simp only [Value.mem_refsOfAll_iff, Value.mem_refs_iff, NameMap.get?_eq_some_iff, List.mem_map]
  constructor
  · rintro ⟨value, ⟨⟨name, value⟩, hentry, rfl⟩, h⟩
    exact ⟨name, value, hentry, h⟩
  · rintro ⟨name, value, hentry, h⟩
    exact ⟨value, ⟨(name, value), hentry, rfl⟩, h⟩

/-- The references of a concept are the keys that it mentions. -/
theorem mem_refs_iff : target ∈ concept.refs ↔ concept.Mentions target := by
  unfold refs Mentions
  rw [List.mem_append, mem_keyRefs_iff, mem_payloadRefs_iff]

end Concept

end ConceptExpansion
