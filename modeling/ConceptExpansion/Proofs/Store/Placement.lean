/-
# The bookkeeping of precedence

`Store.precedence` keeps count of the dependencies of every concept that are not
placed yet, in order not to look at all of them in every step. `Tracks` says that
the bookkeeping is right: every count is the number of unplaced dependencies, the
ready concepts are those unplaced ones whose count is zero, and both lists ascend
by key. It is right before anything is placed. When a concept is put at the end,
the counts of its dependents are one too high, and releasing them one after the
other sets them right.
-/

import ConceptExpansion.Proofs.Store.Contents
import ConceptExpansion.Store.Precedence

namespace ConceptExpansion

namespace Store

variable {store : Store}

/-! ## Who depends on whom -/

theorem mem_dependencies {id dependency : ConceptId} :
    dependency ∈ store.dependencies id ↔
      dependency ≠ id ∧ ∃ entry, store.get? id = some entry ∧
        ∃ target ∈ entry.concept.refs, store.idOf? target = some dependency := by
  unfold dependencies
  cases store.get? id with
  | none => simp
  | some entry =>
      rw [mem_eraseReps, List.mem_mergeSort, List.mem_filter, List.mem_filterMap,
        decide_eq_true_eq, and_comm]
      simp

/-- A concept is listed once among the dependencies of another. -/
theorem nodup_dependencies (store : Store) (id : ConceptId) : (store.dependencies id).Nodup := by
  have hantisymm : ∀ a b : ConceptId, a.atMost b → b.atMost a → a = b := by
    intro a b hab hba
    exact id_ext (Nat.le_antisymm (of_decide_eq_true hab) (of_decide_eq_true hba))
  have hsorted : ∀ l : List ConceptId,
      (l.mergeSort ConceptId.atMost).Pairwise fun a b => a.atMost b := by
    intro l
    apply List.pairwise_mergeSort
    · intro a b c hab hbc
      exact decide_eq_true ((of_decide_eq_true hab).trans (of_decide_eq_true hbc))
    · intro a b
      rw [Bool.or_eq_true]
      exact (Nat.le_total a.index b.index).imp decide_eq_true decide_eq_true
  unfold dependencies
  cases store.get? id with
  | none => exact List.nodup_nil
  | some entry => exact (pairwise_eraseReps hantisymm (hsorted _)).imp And.right

theorem getElem?_foldl_modify {α : Type} (a : α) {ids : List ConceptId} (hids : ids.Nodup)
    (table : Array (List α)) (id : ConceptId) :
    (ids.foldl (fun table other => table.modify other.index (a :: ·)) table)[id.index]? =
      if id ∈ ids then table[id.index]?.map (a :: ·) else table[id.index]? := by
  induction ids generalizing table with
  | nil => rfl
  | cons first ids ih =>
      obtain ⟨hfirst, hids⟩ := List.nodup_cons.1 hids
      rw [List.foldl_cons, ih hids, Array.getElem?_modify]
      by_cases hid : id = first
      · subst hid
        rw [if_neg hfirst, if_pos rfl, if_pos List.mem_cons_self]
      · have hindex : first.index ≠ id.index := fun h => hid (id_ext h.symm)
        simp only [if_neg hindex, List.mem_cons, hid, false_or]

/-- The table of dependents lists, under each concept, the concepts that depend on
it. -/
theorem getElem?_dependents (store : Store) (id : ConceptId) :
    store.dependents[id.index]? =
      (Array.replicate store.size ([] : List (Key × ConceptId)))[id.index]?.map fun _ =>
        ((store.entries.toList.filter fun entry => id ∈ store.dependencies entry.id).map
          fun entry => (entry.key, entry.id)).reverse := by
  have hfold : ∀ (entries : List Entry) (table : Array (List (Key × ConceptId))),
      (entries.foldl (fun table entry =>
        (store.dependencies entry.id).foldl (fun table dependency =>
          table.modify dependency.index ((entry.key, entry.id) :: ·)) table) table)[id.index]? =
        table[id.index]?.map fun listed =>
          ((entries.filter fun entry => id ∈ store.dependencies entry.id).map
            fun entry => (entry.key, entry.id)).reverse ++ listed := by
    intro entries
    induction entries with
    | nil => simp
    | cons entry entries ih =>
        intro table
        rw [List.foldl_cons, ih, getElem?_foldl_modify _ (store.nodup_dependencies entry.id)]
        by_cases hentry : id ∈ store.dependencies entry.id
        · simp [hentry, Function.comp_def]
        · simp [hentry]
  unfold dependents
  rw [hfold]
  by_cases hid : id.index < store.size <;> simp [hid]

end Store

/-! ## Ascending lists of keys -/

theorem Key.lt_asymm {a b : Key} (hab : a.compare b = .lt) : b.compare a ≠ .lt := by
  intro hba
  have hswap : a.compare b = (b.compare a).swap := Std.OrientedCmp.eq_swap
  rw [hab, hba] at hswap
  cases hswap

/-- Lists that ascend by key are equal if they have the same members. -/
theorem eq_of_keys_ascend {α : Type} (key : α → Key) {list list' : List α}
    (h : list.Pairwise fun a b => (key a).compare (key b) = .lt)
    (h' : list'.Pairwise fun a b => (key a).compare (key b) = .lt)
    (hmem : ∀ a, a ∈ list ↔ a ∈ list') : list = list' := by
  have hnodup : ∀ {list : List α},
      (list.Pairwise fun a b => (key a).compare (key b) = .lt) → list.Nodup := by
    intro list h
    apply h.imp
    rintro a b hlt rfl
    exact Key.lt_asymm hlt hlt
  apply ((List.perm_ext_iff_of_nodup (hnodup h) (hnodup h')).2 hmem).eq_of_pairwise _ h h'
  intro a b _ _ hab hba
  exact absurd hba (Key.lt_asymm hab)

/-- The keys of the list ascend strictly. -/
def KeysAscend (list : List (Key × ConceptId)) : Prop :=
  list.Pairwise fun a b => a.1.compare b.1 = .lt

namespace Placement

theorem mem_insertReady {key : Key} {id : ConceptId} {list : List (Key × ConceptId)}
    {entry : Key × ConceptId} :
    entry ∈ insertReady key id list ↔ entry = (key, id) ∨ entry ∈ list := by
  induction list with
  | nil => simp [insertReady]
  | cons first rest ih =>
      unfold insertReady
      split
      · exact List.mem_cons
      · rw [List.mem_cons, ih, List.mem_cons]
        exact or_left_comm

theorem keysAscend_insertReady {key : Key} {id : ConceptId} {list : List (Key × ConceptId)}
    (h : KeysAscend list) (hnew : ∀ entry ∈ list, entry.1 ≠ key) :
    KeysAscend (insertReady key id list) := by
  induction list with
  | nil => exact List.pairwise_singleton _ _
  | cons first rest ih =>
      obtain ⟨hfirst, hrest⟩ := List.pairwise_cons.1 h
      unfold insertReady
      split
      · next hlt =>
          refine List.pairwise_cons.2 ⟨fun entry hentry => ?_, h⟩
          rcases List.mem_cons.1 hentry with rfl | hentry
          · exact hlt
          · exact Std.TransCmp.lt_trans hlt (hfirst entry hentry)
      · next hnlt =>
          refine List.pairwise_cons.2 ⟨fun entry hentry => ?_, ?_⟩
          · rcases mem_insertReady.1 hentry with rfl | hentry
            · have hne : first.1 ≠ key := hnew first List.mem_cons_self
              cases hcompare : first.1.compare key with
              | lt => rfl
              | eq => exact absurd (Std.LawfulEqCmp.eq_of_compare hcompare) hne
              | gt => exact absurd (Std.OrientedCmp.lt_of_gt hcompare) hnlt
            · exact hfirst entry hentry
          · exact ih hrest fun entry hentry => hnew entry (List.mem_cons_of_mem _ hentry)

/-! ## What a placement keeps track of -/

variable {store : Store} {placement : Placement} {id : ConceptId}

/-- How many dependencies of a concept are not placed yet. -/
def pending (placement : Placement) (store : Store) (id : ConceptId) : Nat :=
  (store.dependencies id).countP fun dependency => !placement.isPlaced dependency

/-- The bookkeeping is right, but for one dependency of each of the concepts in
`rest`, which is placed already and still counted. -/
structure Tracks (store : Store) (rest : List (Key × ConceptId)) (placement : Placement) :
    Prop where
  waiting : ∀ id ∈ store.ids, placement.waiting[id.index]? =
    some (placement.pending store id + if id ∈ rest.map (·.2) then 1 else 0)
  mem_ready : ∀ key id, (key, id) ∈ placement.ready ↔
    store.idOf? key = some id ∧ placement.isPlaced id = false ∧
      placement.waiting[id.index]? = some 0
  ascend : KeysAscend placement.ready
  unplaced : placement.unplaced =
    store.byKey.toList.filter fun entry => !placement.isPlaced entry.2
  isPlaced : ∀ id, placement.isPlaced id = true ↔ id ∈ placement.order.toList
  stored : ∀ id ∈ placement.order.toList, id ∈ store.ids
  size : placement.placed.size = store.size

theorem release_eq (placement : Placement) (dependent : Key × ConceptId) :
    placement.release dependent =
      { placement with
        waiting := placement.waiting.modify dependent.2.index (· - 1)
        ready :=
          if (placement.waiting.modify dependent.2.index (· - 1)).getD dependent.2.index 0 = 0 ∧
              placement.isPlaced dependent.2 = false then
            insertReady dependent.1 dependent.2 placement.ready
          else placement.ready } := by
  unfold release
  dsimp only
  by_cases hready : (placement.waiting.modify dependent.2.index (· - 1)).getD dependent.2.index 0 = 0 ∧
      placement.isPlaced dependent.2 = false
  · rw [if_pos hready, if_pos]
    simpa [isPlaced] using hready
  · rw [if_neg hready, if_neg]
    simpa [isPlaced] using hready

@[simp]
theorem order_release (placement : Placement) (dependent : Key × ConceptId) :
    (placement.release dependent).order = placement.order := by
  rw [release_eq]

@[simp]
theorem isPlaced_release (placement : Placement) (dependent : Key × ConceptId) :
    (placement.release dependent).isPlaced = placement.isPlaced := by
  rw [release_eq]
  rfl

theorem pending_release (placement : Placement) (dependent : Key × ConceptId) (store : Store)
    (id : ConceptId) :
    (placement.release dependent).pending store id = placement.pending store id := by
  rw [pending, pending, isPlaced_release]

namespace Tracks

variable {key : Key} {rest : List (Key × ConceptId)}

/-- The count of a concept that is still to be released is one too high. -/
theorem waiting_of_cons (h : placement.Tracks store ((key, id) :: rest)) (hid : id ∈ store.ids) :
    placement.waiting[id.index]? = some (placement.pending store id + 1) := by
  rw [h.waiting id hid, if_pos (by simp)]

theorem not_mem_ready_of_cons (h : placement.Tracks store ((key, id) :: rest))
    (hid : id ∈ store.ids) (other : Key) : (other, id) ∉ placement.ready := by
  intro hmem
  rw [h.mem_ready, h.waiting_of_cons hid] at hmem
  simp at hmem

theorem waiting_modify (h : placement.Tracks store ((key, id) :: rest)) (hid : id ∈ store.ids)
    (other : ConceptId) :
    (placement.waiting.modify id.index (· - 1))[other.index]? =
      if other = id then some (placement.pending store id)
      else placement.waiting[other.index]? := by
  rw [Array.getElem?_modify]
  by_cases hother : other = id
  · rw [hother, if_pos rfl, if_pos rfl, h.waiting_of_cons hid]
    rfl
  · rw [if_neg fun hindex => hother (Store.id_ext hindex.symm), if_neg hother]

/-- A concept that is released joins the ready ones if it waits for nothing more. -/
theorem ready_release (h : placement.Tracks store ((key, id) :: rest)) (hid : id ∈ store.ids) :
    (placement.release (key, id)).ready =
      if placement.pending store id = 0 ∧ placement.isPlaced id = false then
        insertReady key id placement.ready
      else placement.ready := by
  have hcount : (placement.waiting.modify id.index (· - 1)).getD id.index 0 =
      placement.pending store id := by
    rw [Array.getD_eq_getD_getElem?, h.waiting_modify hid id, if_pos rfl, Option.getD_some]
  rw [release_eq]
  dsimp only
  rw [hcount]

theorem mem_ready_release (h : placement.Tracks store ((key, id) :: rest)) (hid : id ∈ store.ids)
    (entry : Key × ConceptId) :
    entry ∈ (placement.release (key, id)).ready ↔
      (entry = (key, id) ∧ placement.pending store id = 0 ∧ placement.isPlaced id = false) ∨
        entry ∈ placement.ready := by
  rw [h.ready_release hid]
  split
  · next hready =>
      rw [mem_insertReady]
      exact or_congr_left (and_iff_left hready).symm
  · next hready =>
      exact (or_iff_right fun hmem => hready hmem.2).symm

/-- Releasing a concept sets its count right. -/
theorem release (hstore : store.WellFormed) (h : placement.Tracks store ((key, id) :: rest))
    (hkey : store.idOf? key = some id) (hrest : id ∉ rest.map (·.2)) :
    (placement.release (key, id)).Tracks store rest := by
  obtain ⟨entry, hget, hentry⟩ := hstore.idOf?_eq_some_iff.1 hkey
  have hid : id ∈ store.ids := hstore.mem_ids.2 ⟨entry, hget⟩
  have hkeys : ∀ {other : Key}, store.idOf? other = some id → other = key := by
    intro other hother
    obtain ⟨again, hagain, hkey'⟩ := hstore.idOf?_eq_some_iff.1 hother
    rw [hget] at hagain
    rw [← hkey', ← hentry, Option.some.inj hagain]
  have hwaiting : ∀ other : ConceptId, (placement.release (key, id)).waiting[other.index]? =
      if other = id then some (placement.pending store id)
      else placement.waiting[other.index]? := by
    intro other
    rw [release_eq]
    exact h.waiting_modify hid other
  exact
    { waiting := by
        intro other hother
        rw [hwaiting, pending_release]
        by_cases heq : other = id
        · subst heq
          rw [if_pos rfl, if_neg hrest, Nat.add_zero]
        · rw [if_neg heq, h.waiting other hother]
          simp only [List.map_cons, List.mem_cons, heq, false_or]
      mem_ready := by
        intro other i
        rw [h.mem_ready_release hid, hwaiting, isPlaced_release]
        by_cases heq : i = id
        · subst heq
          rw [or_iff_left (h.not_mem_ready_of_cons hid other), if_pos rfl, Option.some.injEq]
          constructor
          · rintro ⟨hother, hzero, hplaced⟩
            cases hother
            exact ⟨hkey, hplaced, hzero⟩
          · rintro ⟨hother, hplaced, hzero⟩
            exact ⟨by rw [hkeys hother], hzero, hplaced⟩
        · rw [if_neg heq, ← h.mem_ready]
          exact or_iff_right fun hother => heq (congrArg Prod.snd hother.1)
      ascend := by
        rw [h.ready_release hid]
        split
        · apply keysAscend_insertReady h.ascend
          rintro ⟨other, i⟩ hmem rfl
          have hi : i = id :=
            Option.some.inj (((h.mem_ready other i).1 hmem).1.symm.trans hkey)
          exact h.not_mem_ready_of_cons hid other (hi ▸ hmem)
        · exact h.ascend
      unplaced := by
        rw [isPlaced_release, release_eq]
        exact h.unplaced
      isPlaced := by
        rw [isPlaced_release, order_release]
        exact h.isPlaced
      stored := by
        rw [order_release]
        exact h.stored
      size := by
        rw [release_eq]
        exact h.size }

end Tracks

theorem order_foldl_release (dependents : List (Key × ConceptId)) (placement : Placement) :
    (dependents.foldl release placement).order = placement.order := by
  induction dependents generalizing placement with
  | nil => rfl
  | cons first dependents ih => rw [List.foldl_cons, ih, order_release]

theorem Tracks.foldl_release (hstore : store.WellFormed) {dependents : List (Key × ConceptId)}
    (h : placement.Tracks store dependents)
    (hdependents : ∀ entry ∈ dependents, store.idOf? entry.1 = some entry.2)
    (hnodup : (dependents.map (·.2)).Nodup) :
    (dependents.foldl Placement.release placement).Tracks store [] := by
  induction dependents generalizing placement with
  | nil => exact h
  | cons first dependents ih =>
      obtain ⟨hfirst, hnodup⟩ := List.nodup_cons.1 hnodup
      apply ih (h.release hstore (hdependents first List.mem_cons_self) hfirst) _ hnodup
      exact fun entry hentry => hdependents entry (List.mem_cons_of_mem _ hentry)

theorem countP_not_placed {dependencies : List ConceptId} (hnodup : dependencies.Nodup)
    (p : ConceptId → Bool) (hid : p id = false) :
    dependencies.countP (fun other => !p other) =
      dependencies.countP (fun other => !(p other || other = id)) +
        if id ∈ dependencies then 1 else 0 := by
  induction dependencies with
  | nil => rfl
  | cons first dependencies ih =>
      obtain ⟨hfirst, hnodup⟩ := List.nodup_cons.1 hnodup
      rw [List.countP_cons, List.countP_cons, ih hnodup]
      by_cases heq : id = first
      · subst heq
        simp [hid, hfirst]
      · have hne : first ≠ id := Ne.symm heq
        simp only [List.mem_cons, heq, hne, decide_false, Bool.or_false, false_or]
        omega

theorem mem_dependents (hstore : store.WellFormed) (hid : id ∈ store.ids) {key : Key}
    {dependent : ConceptId} :
    (key, dependent) ∈ store.dependents.getD id.index [] ↔
      store.idOf? key = some dependent ∧ id ∈ store.dependencies dependent := by
  rw [Array.getD_eq_getD_getElem?, Store.getElem?_dependents,
    Array.getElem?_replicate, if_pos (hstore.index_lt hid), Option.map_some, Option.getD_some,
    List.mem_reverse, List.mem_map, hstore.idOf?_eq_some_iff]
  constructor
  · rintro ⟨entry, hmem, heq⟩
    cases heq
    obtain ⟨hentry, hdepends⟩ := List.mem_filter.1 hmem
    exact ⟨⟨entry, hstore.get?_of_mem (Array.mem_toList_iff.1 hentry), rfl⟩,
      of_decide_eq_true hdepends⟩
  · rintro ⟨⟨entry, hget, rfl⟩, hdepends⟩
    obtain rfl := hstore.id_of_get? hget
    exact ⟨entry, List.mem_filter.2
      ⟨Array.mem_toList_iff.2 (Array.mem_of_getElem? hget), decide_eq_true hdepends⟩, rfl⟩

theorem nodup_dependents (hstore : store.WellFormed) (id : ConceptId) :
    ((store.dependents.getD id.index []).map (·.2)).Nodup := by
  rw [Array.getD_eq_getD_getElem?, Store.getElem?_dependents]
  cases (Array.replicate store.size ([] : List (Key × ConceptId)))[id.index]? with
  | none => exact List.nodup_nil
  | some _ =>
      rw [Option.map_some, Option.getD_some, List.map_reverse, List.nodup_reverse, List.map_map]
      exact hstore.nodup_ids.sublist (List.filter_sublist.map _)

/-- The placement with a concept put at the end, before its dependents are
released. -/
def seat (placement : Placement) (id : ConceptId) : Placement :=
  { placement with
    ready := placement.ready.filter (·.2 ≠ id)
    unplaced := placement.unplaced.filter (·.2 ≠ id)
    placed := placement.placed.modify id.index fun _ => true
    order := placement.order.push id }

theorem place_eq_foldl (placement : Placement) (id : ConceptId)
    (dependents : List (Key × ConceptId)) :
    placement.place id dependents = dependents.foldl release (placement.seat id) := rfl

theorem isPlaced_seat (hindex : id.index < placement.placed.size) (other : ConceptId) :
    (placement.seat id).isPlaced other = (placement.isPlaced other || other = id) := by
  show (placement.placed.modify id.index fun _ => true).getD other.index false = _
  unfold isPlaced
  rw [Array.getD_eq_getD_getElem?, Array.getD_eq_getD_getElem?, Array.getElem?_modify]
  by_cases hother : other = id
  · subst hother
    rw [if_pos rfl, Array.getElem?_eq_getElem hindex]
    simp
  · rw [if_neg fun heq => hother (Store.id_ext heq.symm)]
    simp [hother]

/-- When a concept has been put at the end, the counts of its dependents are what
is left to be set right. -/
theorem Tracks.seat (hstore : store.WellFormed) (h : placement.Tracks store [])
    (hid : id ∈ store.ids) (hnew : placement.isPlaced id = false) :
    (placement.seat id).Tracks store (store.dependents.getD id.index []) := by
  have hplaced := isPlaced_seat (h.size ▸ hstore.index_lt hid)
  have hdependents : ∀ other ∈ store.ids,
      other ∈ (store.dependents.getD id.index []).map (·.2) ↔ id ∈ store.dependencies other := by
    intro other hother
    rw [List.mem_map]
    constructor
    · rintro ⟨⟨key, i⟩, hmem, rfl⟩
      exact ((mem_dependents hstore hid).1 hmem).2
    · intro hdepends
      obtain ⟨entry, hget⟩ := hstore.mem_ids.1 hother
      have hkey := hstore.idOf?_eq_some_iff.2 ⟨entry, hget, rfl⟩
      exact ⟨(entry.key, other), (mem_dependents hstore hid).2 ⟨hkey, hdepends⟩, rfl⟩
  exact
    { waiting := by
        intro other hother
        have hcount := countP_not_placed (store.nodup_dependencies other) placement.isPlaced hnew
        show placement.waiting[other.index]? = _
        rw [h.waiting other hother, List.map_nil, if_neg List.not_mem_nil, Nat.add_zero]
        unfold pending
        simp only [hplaced, hdependents other hother]
        rw [hcount]
      mem_ready := by
        intro key other
        show (key, other) ∈ placement.ready.filter _ ↔ _ ∧ _ ∧
          placement.waiting[other.index]? = some 0
        rw [List.mem_filter, h.mem_ready, hplaced, Bool.or_eq_false_iff, decide_eq_true_eq,
          decide_eq_false_iff_not]
        exact ⟨fun ⟨⟨hkey, hother, hzero⟩, hne⟩ => ⟨hkey, ⟨hother, hne⟩, hzero⟩,
          fun ⟨hkey, ⟨hother, hne⟩, hzero⟩ => ⟨⟨hkey, hother, hzero⟩, hne⟩⟩
      ascend := h.ascend.filter _
      unplaced := by
        show placement.unplaced.filter _ = _
        rw [h.unplaced, List.filter_filter]
        apply List.filter_congr
        intro entry _
        rw [hplaced, Bool.not_or, Bool.and_comm]
        simp
      isPlaced := by
        intro other
        show _ ↔ other ∈ (placement.order.push id).toList
        rw [hplaced, Bool.or_eq_true, h.isPlaced, Array.toList_push, List.mem_append,
          List.mem_singleton, decide_eq_true_eq]
      stored := by
        intro other hother
        have hother : other ∈ (placement.order.push id).toList := hother
        rw [Array.toList_push, List.mem_append, List.mem_singleton] at hother
        rcases hother with hother | rfl
        · exact h.stored other hother
        · exact hid
      size := by
        show (placement.placed.modify id.index _).size = _
        rw [Array.size_modify, h.size] }

/-- Placing a concept keeps the bookkeeping right. -/
theorem Tracks.place (hstore : store.WellFormed) (h : placement.Tracks store [])
    (hid : id ∈ store.ids) (hnew : placement.isPlaced id = false) :
    (placement.place id (store.dependents.getD id.index [])).Tracks store [] := by
  rw [place_eq_foldl]
  apply (h.seat hstore hid hnew).foldl_release hstore
  · intro entry hentry
    exact ((mem_dependents hstore hid).1 hentry).1
  · exact nodup_dependents hstore id

theorem order_place (placement : Placement) (id : ConceptId)
    (dependents : List (Key × ConceptId)) :
    (placement.place id dependents).order = placement.order.push id := by
  rw [place_eq_foldl, order_foldl_release]
  rfl

end Placement

namespace Store

variable {store : Store}

theorem keysAscend_byKey (store : Store) : KeysAscend store.byKey.toList :=
  Std.TreeMap.ordered_keys_toList

theorem mem_byKey {key : Key} {id : ConceptId} :
    (key, id) ∈ store.byKey.toList ↔ store.idOf? key = some id :=
  Std.TreeMap.mem_toList_iff_getElem?_eq_some

/-- Before anything is placed all dependencies are counted. -/
theorem tracks_startPlacement (hstore : store.WellFormed) :
    store.startPlacement.Tracks store [] := by
  have hplaced : ∀ id, store.startPlacement.isPlaced id = false := by
    intro id
    show (Array.replicate store.size false).getD id.index false = false
    rw [Array.getD_eq_getD_getElem?, Array.getElem?_replicate]
    split <;> rfl
  have hwaiting : ∀ id ∈ store.ids, store.startPlacement.waiting[id.index]? =
      some (store.dependencies id).length := by
    intro id hid
    obtain ⟨entry, hget⟩ := hstore.mem_ids.1 hid
    show (store.entries.map _)[id.index]? = _
    rw [Array.getElem?_map, show store.entries[id.index]? = some entry from hget,
      Option.map_some, hstore.id_of_get? hget]
  exact
    { waiting := by
        intro id hid
        rw [hwaiting id hid, List.map_nil, if_neg List.not_mem_nil, Nat.add_zero,
          Placement.pending, List.countP_eq_length.2]
        intro dependency _
        rw [hplaced]
        rfl
      mem_ready := by
        intro key id
        show (key, id) ∈ store.byKey.toList.filter _ ↔ _
        rw [List.mem_filter, mem_byKey, hplaced]
        refine and_congr_right fun hkey => ?_
        obtain ⟨entry, hget, -⟩ := hstore.idOf?_eq_some_iff.1 hkey
        rw [hwaiting id (hstore.mem_ids.2 ⟨entry, hget⟩), Option.some.injEq,
          List.length_eq_zero_iff, List.isEmpty_iff]
        exact (and_iff_right rfl).symm
      ascend := (keysAscend_byKey store).filter _
      unplaced := by
        show store.byKey.toList = _
        rw [List.filter_eq_self.2]
        intro entry _
        rw [hplaced]
        rfl
      isPlaced := by
        intro id
        rw [hplaced]
        exact ⟨fun h => absurd h Bool.false_ne_true, fun h => absurd h List.not_mem_nil⟩
      stored := fun _ hid => absurd hid List.not_mem_nil
      size := Array.size_replicate }

end Store

end ConceptExpansion
