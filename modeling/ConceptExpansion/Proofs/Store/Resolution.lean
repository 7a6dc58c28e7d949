/-
# Which references lead somewhere

A reference leads somewhere if its target is stored or of a sink kind. Two searches go
through references in a fixed order and stop at the first that leads nowhere: the one
that decides whether a concept may be admitted goes through the key references of the
concept, and the one that looks for what is dangling goes through all references of
the stored concepts, in the order of admission. `FirstMissing` says what either search
has found.
-/

import ConceptExpansion.Proofs.Store.WellFormed
import ConceptExpansion.Proofs.Value.References

namespace ConceptExpansion.Store

variable {store : Store} {target : Key} {concept : Concept} {entry : Entry}

/-- The target is stored or of a declared sink kind. -/
def Resolves (store : Store) (target : Key) : Prop :=
  (∃ entry ∈ store.entries, entry.key = target) ∨
    ∃ kind, store.schema.get? target.kind = some kind ∧ kind.sink = true

/-- The target is the first of the keys that leads nowhere. -/
def FirstMissing (store : Store) (keys : List Key) (target : Key) : Prop :=
  ∃ before after, keys = before ++ target :: after ∧ (∀ key ∈ before, store.Resolves key) ∧
    ¬ store.Resolves target

theorem FirstMissing.mem {keys : List Key} (h : store.FirstMissing keys target) :
    target ∈ keys := by
  obtain ⟨before, after, rfl, -⟩ := h
  exact List.mem_append_right _ List.mem_cons_self

theorem FirstMissing.not_resolves {keys : List Key} (h : store.FirstMissing keys target) :
    ¬ store.Resolves target := by
  obtain ⟨-, -, -, -, hmissing⟩ := h
  exact hmissing

namespace WellFormed

theorem contains_iff_mem (hstore : store.WellFormed) :
    store.contains target = true ↔ ∃ entry ∈ store.entries, entry.key = target := by
  rw [hstore.contains_iff]
  constructor
  · rintro ⟨entry, hfind⟩
    obtain ⟨hget, hkey⟩ := hstore.find?_eq_some_iff.1 hfind
    exact ⟨entry, Array.mem_of_getElem? hget, hkey⟩
  · rintro ⟨entry, hentry, hkey⟩
    exact ⟨entry, hstore.find?_eq_some_iff.2 ⟨hstore.get?_of_mem hentry, hkey⟩⟩

theorem resolvable_iff (hstore : store.WellFormed) :
    store.resolvable target = true ↔ store.Resolves target := by
  unfold resolvable Resolves Schema.isSink
  rw [Bool.or_eq_true, hstore.contains_iff_mem, Option.any_eq_true]

theorem find?_eq_some_iff_firstMissing (hstore : store.WellFormed) (keys : List Key) :
    keys.find? (fun key => !store.resolvable key) = some target ↔
      store.FirstMissing keys target := by
  rw [List.find?_eq_some_iff_append]
  simp only [Bool.not_eq_true', Bool.not_not, hstore.resolvable_iff, ← Bool.not_eq_true]
  constructor
  · rintro ⟨hmissing, before, after, rfl, hbefore⟩
    exact ⟨before, after, rfl, hbefore, hmissing⟩
  · rintro ⟨before, after, rfl, hbefore, hmissing⟩
    exact ⟨hmissing, before, after, rfl, hbefore⟩

/-- What keeps a concept from being admitted is its first key reference that leads
nowhere. -/
theorem missingTarget?_eq_some_iff (hstore : store.WellFormed) :
    store.missingTarget? concept = some target ↔ store.FirstMissing concept.keyRefs target :=
  hstore.find?_eq_some_iff_firstMissing _

theorem head?_unresolvedRefs (hstore : store.WellFormed) :
    (store.unresolvedRefs concept).head? = some target ↔
      store.FirstMissing concept.refs target := by
  unfold unresolvedRefs
  rw [List.head?_filter]
  exact hstore.find?_eq_some_iff_firstMissing _

theorem unresolvedRefs_eq_nil_iff (hstore : store.WellFormed) :
    store.unresolvedRefs concept = [] ↔
      ∀ target, concept.Mentions target → store.Resolves target := by
  unfold unresolvedRefs
  rw [List.filter_eq_nil_iff]
  simp only [Bool.not_eq_true', Bool.not_eq_false, hstore.resolvable_iff, Concept.mem_refs_iff]

/-- Nothing dangles if whatever a stored concept mentions leads somewhere. -/
theorem dangling_eq_nil_iff_mentions (hstore : store.WellFormed) :
    store.dangling = [] ↔
      ∀ entry ∈ store.entries, ∀ target, entry.concept.Mentions target →
        store.Resolves target := by
  unfold dangling
  rw [List.flatMap_eq_nil_iff]
  simp only [List.map_eq_nil_iff, hstore.unresolvedRefs_eq_nil_iff, Array.mem_toList_iff]

/-- The first dangling reference is the first one that leads nowhere, of the concept
that was admitted first among those that have one. -/
theorem head?_dangling_eq_some_iff (hstore : store.WellFormed) :
    store.dangling.head? = some (entry, target) ↔
      ∃ before after, store.entries.toList = before ++ entry :: after ∧
        (∀ earlier ∈ before, ∀ target, earlier.concept.Mentions target →
          store.Resolves target) ∧
        store.FirstMissing entry.concept.refs target := by
  have hhead : ∀ other : Entry,
      ((store.unresolvedRefs other.concept).map fun target => (other, target)).head? =
        (store.unresolvedRefs other.concept).head?.map fun target => (other, target) :=
    fun other => List.head?_map
  unfold dangling
  rw [List.head?_flatMap, List.findSome?_eq_some_iff]
  simp only [hhead, Option.map_eq_none_iff, Option.map_eq_some_iff, List.head?_eq_none_iff,
    hstore.unresolvedRefs_eq_nil_iff]
  constructor
  · rintro ⟨before, other, after, hentries, ⟨missing, hmissing, hpair⟩, hbefore⟩
    cases hpair
    exact ⟨before, after, hentries, hbefore, hstore.head?_unresolvedRefs.1 hmissing⟩
  · rintro ⟨before, after, hentries, hbefore, hmissing⟩
    exact ⟨before, entry, after, hentries,
      ⟨target, hstore.head?_unresolvedRefs.2 hmissing, rfl⟩, hbefore⟩

/-- A concept that waits for a key reference is not stored. -/
theorem not_contains_of_missing (hstore : store.WellFormed)
    (hmissing : store.missingTarget? concept ≠ none) : store.contains concept.key = false := by
  rw [← Bool.not_eq_true, hstore.contains_iff]
  rintro ⟨entry, hfind⟩
  exact hmissing (hstore.missingTarget?_of_find? hfind)

/-- The key references of a stored concept lead somewhere. -/
theorem resolvable_of_mentions (hstore : store.WellFormed) {id : ConceptId}
    (hget : store.get? id = some entry) (h : entry.key.Mentions target) :
    store.resolvable target = true := by
  apply (missingTarget?_eq_none_iff store entry.concept).1 (hstore.resolved hget)
  rwa [Concept.keyRefs_eq, hstore.concept_key hget, Key.mem_refs_iff]

end WellFormed

end ConceptExpansion.Store
