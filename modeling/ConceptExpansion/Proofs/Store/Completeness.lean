/-
# The order of precedence lists the whole store

A payload may refer to the concept that refers back to it, and then neither is ever
ready. The next concept is chosen by its key references alone in that case, and there
is always one to choose: key references lead to smaller keys, so among the concepts
that are not placed one with a smallest key has all its key references placed. Placing
therefore never stops early, and every stored concept is placed exactly once.
-/

import ConceptExpansion.Proofs.Store.Precedence
import ConceptExpansion.Proofs.Value.References

namespace ConceptExpansion

namespace Store

variable {store : Store} {placement : Placement} {key : Key} {id : ConceptId}

/-- The concepts that the key fields of a stored concept refer to have smaller keys. -/
theorem WellFormed.sizeOf_lt_of_mem_keyDependencies (hstore : store.WellFormed)
    (hkey : store.idOf? key = some id) {dependency : ConceptId}
    (h : dependency ∈ store.keyDependencies id) :
    ∃ target, store.idOf? target = some dependency ∧ sizeOf target < sizeOf key := by
  obtain ⟨entry, hget, hentry⟩ := hstore.idOf?_eq_some_iff.1 hkey
  unfold keyDependencies at h
  rw [hget] at h
  obtain ⟨target, htarget, hid⟩ := List.mem_filterMap.1 h
  rw [Concept.keyRefs_eq, hstore.concept_key hget, hentry] at htarget
  exact ⟨target, hid, (Key.mem_refs_iff.1 htarget).sizeOf_lt⟩

/-- As long as a concept is not placed there is one whose key references are all
placed. -/
theorem exists_placeable (hstore : store.WellFormed) (h : placement.Tracks store [])
    (hkey : store.idOf? key = some id) (hnew : placement.isPlaced id = false) :
    ∃ entry ∈ placement.unplaced,
      (store.keyDependencies entry.2).all placement.isPlaced = true := by
  -- Whatever keeps a concept from being placed is smaller, and it is not placed either.
  induction hsize : sizeOf key using Nat.strong_induction_on generalizing key id with
  | _ size ih =>
      by_cases hall : (store.keyDependencies id).all placement.isPlaced = true
      · refine ⟨(key, id), ?_, hall⟩
        rw [h.unplaced, List.mem_filter, mem_byKey, hnew]
        exact ⟨hkey, rfl⟩
      · obtain ⟨dependency, hdepends, hwaits⟩ := List.all_eq_false.1 (Bool.not_eq_true _ ▸ hall)
        obtain ⟨target, htarget, hlt⟩ := hstore.sizeOf_lt_of_mem_keyDependencies hkey hdepends
        exact ih _ (hsize ▸ hlt) htarget (Bool.not_eq_true _ ▸ hwaits) rfl

theorem exists_nextPlaced? (hstore : store.WellFormed) (h : placement.Tracks store [])
    (hid : id ∈ store.ids) (hnew : placement.isPlaced id = false) :
    ∃ next, store.nextPlaced? placement = some next := by
  unfold nextPlaced?
  cases placement.ready with
  | cons entry rest => exact ⟨entry.2, rfl⟩
  | nil =>
      obtain ⟨entry, hget⟩ := hstore.mem_ids.1 hid
      have hkey := hstore.idOf?_eq_some_iff.2 ⟨entry, hget, rfl⟩
      obtain ⟨other, hother, hall⟩ := exists_placeable hstore h hkey hnew
      obtain ⟨found, hfound⟩ := Option.isSome_iff_exists.1
        (List.find?_isSome (p := fun entry : Key × ConceptId =>
          (store.keyDependencies entry.2).all placement.isPlaced) |>.2 ⟨other, hother, hall⟩)
      exact ⟨found.2, by rw [hfound]; rfl⟩

/-- Some concept is not placed as long as fewer are placed than there are. -/
theorem exists_unplaced (hstore : store.WellFormed) (h : placement.Tracks store [])
    (hlt : placement.order.size < store.size) :
    ∃ id ∈ store.ids, placement.isPlaced id = false := by
  by_contra hnone
  have hsubset : store.ids ⊆ placement.order.toList := by
    intro id hid
    by_contra hnot
    rw [← h.isPlaced, Bool.not_eq_true] at hnot
    exact hnone ⟨id, hid, hnot⟩
  have hle := (List.subperm_of_subset hstore.nodup_ids hsubset).length_le
  rw [length_ids, Array.length_toList] at hle
  omega

/-- Placing goes on until every stored concept is placed. -/
theorem order_placeSteps_perm (hstore : store.WellFormed) (h : placement.Tracks store [])
    (hnodup : placement.order.toList.Nodup) {steps : Nat}
    (hsteps : placement.order.size + steps = store.size) :
    (store.placeSteps store.dependents steps placement).order.toList.Perm store.ids := by
  induction steps generalizing placement with
  | zero =>
      apply (List.subperm_of_subset hnodup fun id hid => h.stored id hid).perm_of_length_le
      rw [length_ids, Array.length_toList]
      exact hsteps.ge
  | succ steps ih =>
      obtain ⟨id, hid, hnew⟩ := exists_unplaced hstore h (by omega)
      obtain ⟨next, hnext⟩ := exists_nextPlaced? hstore h hid hnew
      obtain ⟨hstored, hunplaced⟩ := unplaced_of_nextPlaced? hstore h hnext
      unfold placeSteps
      rw [hnext]
      apply ih (h.place hstore hstored hunplaced)
      · rw [Placement.order_place, Array.toList_push]
        refine List.nodup_append'.2 ⟨hnodup, List.nodup_singleton next, ?_⟩
        rw [List.disjoint_singleton, ← h.isPlaced, hunplaced]
        exact Bool.false_ne_true
      · rw [Placement.order_place, Array.size_push]
        omega

/-- The order of precedence lists every stored concept exactly once. -/
theorem WellFormed.precedence_perm (hstore : store.WellFormed) :
    store.precedence.Perm store.ids := by
  have hempty : store.startPlacement.order = #[] := rfl
  apply order_placeSteps_perm hstore (tracks_startPlacement hstore)
  · rw [hempty]
    exact List.nodup_nil
  · rw [hempty]
    exact Nat.zero_add _

/-- The entries in the order of precedence are those in the order of admission. -/
theorem WellFormed.filterMap_precedence_perm (hstore : store.WellFormed) :
    (store.precedence.filterMap store.get?).Perm store.entries.toList := by
  have hentries : store.ids.filterMap store.get? = store.entries.toList := by
    unfold ids
    rw [List.filterMap_map]
    refine (List.filterMap_congr fun entry hentry => ?_).trans List.filterMap_some
    exact hstore.get?_of_mem (Array.mem_toList_iff.1 hentry)
  rw [← hentries]
  exact hstore.precedence_perm.filterMap _

end Store

end ConceptExpansion
