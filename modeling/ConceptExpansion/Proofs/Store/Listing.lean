/-
# Ways to list a store

The entries of a store list its concepts in the order of admission, the index of
a kind those of the kind by ascending key. Either way every concept is listed
once: identifiers are given out one after the other, and no two entries have one
identifier or one key.
-/

import ConceptExpansion.Proofs.Store.Growth

namespace ConceptExpansion

namespace Store

variable {store : Store}

/-! ## Identifiers -/

/-- The identifiers of the stored concepts, in the order of admission. -/
def ids (store : Store) : List ConceptId :=
  store.entries.toList.map (·.id)

/-- The key of a stored concept. -/
def keyOf? (store : Store) (id : ConceptId) : Option Key :=
  (store.get? id).map (·.key)

@[simp]
theorem length_ids (store : Store) : store.ids.length = store.size := by
  simp [ids, size]

theorem ids_push (store : Store) (entry : Entry) :
    (store.push entry).ids = store.ids ++ [entry.id] := by
  simp [ids, push]

theorem ids_setPayload (store : Store) (id : ConceptId) (payload : Attributes) :
    (store.setPayload id payload).ids = store.ids := by
  apply List.ext_getElem?
  intro index
  unfold ids setPayload
  rw [List.getElem?_map, List.getElem?_map, Array.getElem?_toList, Array.getElem?_toList,
    Array.getElem?_modify]
  split
  · cases store.entries[index]? <;> rfl
  · rfl

theorem ids_insert {store next : Store} {concept : Concept} {origin : Origin}
    {admission : Admission} (h : store.insert concept origin = .ok (admission, next)) :
    next.ids = if admission.isNew then store.ids ++ [admission.id] else store.ids := by
  obtain ⟨kind, -, -, hinsertion⟩ := insert_eq_ok_iff.1 h
  cases hinsertion with
  | admitted => exact ids_push store _
  | alreadyPresent => rfl
  | merged => exact ids_setPayload store _ _

/-- The index of keys lists no key twice. -/
theorem nodup_keyList (store : Store) : store.keys.Nodup := by
  apply Std.TreeMap.distinct_keys.imp
  intro a b hne heq
  exact hne (compare_eq_iff.2 heq)

namespace WellFormed

theorem find?_of_get? (hstore : store.WellFormed) {id : ConceptId} {entry : Entry}
    (hget : store.get? id = some entry) : store.find? entry.key = some entry :=
  hstore.find?_eq_some_iff.2 ⟨hstore.id_of_get? hget ▸ hget, rfl⟩

theorem keyOf?_eq_some_iff (hstore : store.WellFormed) {key : Key} {id : ConceptId} :
    store.keyOf? id = some key ↔ store.idOf? key = some id := by
  rw [hstore.idOf?_eq_some_iff]
  unfold keyOf?
  exact Option.map_eq_some_iff

theorem mem_ids (hstore : store.WellFormed) {id : ConceptId} :
    id ∈ store.ids ↔ ∃ entry, store.get? id = some entry := by
  unfold ids
  rw [List.mem_map]
  constructor
  · rintro ⟨entry, hentry, rfl⟩
    exact ⟨entry, hstore.get?_of_mem (Array.mem_toList_iff.1 hentry)⟩
  · rintro ⟨entry, hget⟩
    exact ⟨entry, Array.mem_toList_iff.2 (Array.mem_of_getElem? hget), hstore.id_of_get? hget⟩

theorem index_lt (hstore : store.WellFormed) {id : ConceptId} (hid : id ∈ store.ids) :
    id.index < store.size := by
  obtain ⟨entry, hentry⟩ := hstore.mem_ids.1 hid
  exact (Array.getElem?_eq_some_iff.1 hentry).1

theorem mem_ids_of_index_lt (hstore : store.WellFormed) {id : ConceptId}
    (hid : id.index < store.size) : id ∈ store.ids :=
  hstore.mem_ids.2 ⟨_, Array.getElem?_eq_getElem hid⟩

/-- Identifiers are given out one after the other. -/
theorem index_ids (hstore : store.WellFormed) :
    store.ids.map (·.index) = List.range store.size := by
  apply List.ext_getElem?
  intro index
  unfold ids size
  rw [List.map_map, List.getElem?_map, Array.getElem?_toList]
  cases hentry : store.entries[index]? with
  | none =>
      rw [Array.getElem?_eq_none_iff] at hentry
      simp [hentry]
  | some entry =>
      have hlt := (Array.getElem?_eq_some_iff.1 hentry).1
      simp [hlt, hstore.index_id hentry]

theorem nodup_ids (hstore : store.WellFormed) : store.ids.Nodup := by
  apply List.Nodup.of_map (·.index)
  rw [hstore.index_ids]
  exact List.nodup_range

/-- Every entry is listed once. -/
theorem nodup_entries (hstore : store.WellFormed) : store.entries.toList.Nodup :=
  hstore.nodup_ids.of_map _

/-- No two entries have one key. -/
theorem nodup_keys (hstore : store.WellFormed) : (store.entries.toList.map (·.key)).Nodup := by
  apply List.Nodup.map_on _ hstore.nodup_entries
  intro a ha b hb hkey
  have hfind : ∀ entry ∈ store.entries.toList, store.find? entry.key = some entry := by
    intro entry hentry
    exact hstore.find?_of_get? (hstore.get?_of_mem (Array.mem_toList_iff.1 hentry))
  exact Option.some.inj ((hfind a ha).symm.trans (hkey ▸ hfind b hb))

theorem keyOf?_ids (hstore : store.WellFormed) :
    store.ids.map store.keyOf? = (store.entries.toList.map (·.key)).map some := by
  unfold ids
  rw [List.map_map, List.map_map]
  apply List.map_congr_left
  intro entry hentry
  show (store.get? entry.id).map (·.key) = some entry.key
  rw [hstore.get?_of_mem (Array.mem_toList_iff.1 hentry)]
  rfl

/-- The index of keys lists the keys of the entries. -/
theorem keys_perm (hstore : store.WellFormed) :
    store.keys.Perm (store.entries.toList.map (·.key)) := by
  rw [List.perm_ext_iff_of_nodup store.nodup_keyList hstore.nodup_keys]
  intro key
  rw [hstore.mem_keys, List.mem_map]
  constructor
  · rintro ⟨entry, hfind⟩
    obtain ⟨hget, hkey⟩ := hstore.find?_eq_some_iff.1 hfind
    exact ⟨entry, Array.mem_toList_iff.2 (Array.mem_of_getElem? hget), hkey⟩
  · rintro ⟨entry, hentry, rfl⟩
    exact ⟨entry, hstore.find?_of_get? (hstore.get?_of_mem (Array.mem_toList_iff.1 hentry))⟩

theorem length_keys (hstore : store.WellFormed) : store.keys.length = store.size := by
  rw [hstore.keys_perm.length_eq, List.length_map, Array.length_toList]
  rfl

end WellFormed

/-- A stored concept keeps its key while the store grows. -/
theorem Grows.keyOf? {next : Store} (hgrows : Grows store next) (hstore : store.WellFormed)
    {id : ConceptId} (hid : id ∈ store.ids) : next.keyOf? id = store.keyOf? id := by
  obtain ⟨entry, hentry⟩ := hstore.mem_ids.1 hid
  obtain ⟨later, hlater, hkey, -, -⟩ := hgrows.entry hentry
  unfold Store.keyOf?
  rw [hentry, hlater, Option.map_some, Option.map_some, hkey]

/-! ## The concepts of a kind -/

theorem nodup_keysOfKind (store : Store) (kind : String) :
    ((store.keysOfKind kind).map (·.1)).Nodup := by
  unfold List.Nodup
  rw [List.pairwise_map]
  unfold keysOfKind
  cases store.byKind[kind]? with
  | none => exact .nil
  | some index => exact index.distinct_keys_toList.imp fun hne heq => hne (compare_eq_iff.2 heq)

namespace WellFormed

theorem map_key_ofKind (hstore : store.WellFormed) (kind : String) :
    (store.ofKind kind).map (·.key) = (store.keysOfKind kind).map (·.1) := by
  unfold ofKind
  rw [List.map_filterMap, ← List.filterMap_eq_map]
  apply List.filterMap_congr
  rintro ⟨key, id⟩ hmem
  obtain ⟨entry, hget, hkey⟩ := hstore.idOf?_eq_some_iff.1 (hstore.mem_keysOfKind.1 hmem).2
  simp only [hget, Option.map_some, hkey, Function.comp_apply]

/-- The concepts of a kind are listed by key, each of them once. -/
theorem ofKind_perm (hstore : store.WellFormed) (kind : String) :
    (store.ofKind kind).Perm (store.entries.toList.filter fun entry => entry.key.kind = kind) := by
  have hnodup : (store.ofKind kind).Nodup := by
    apply List.Nodup.of_map (·.key)
    rw [hstore.map_key_ofKind]
    exact store.nodup_keysOfKind kind
  rw [List.perm_ext_iff_of_nodup hnodup (hstore.nodup_entries.filter _)]
  intro entry
  rw [hstore.mem_ofKind, List.mem_filter, Array.mem_toList_iff, decide_eq_true_eq]
  exact and_congr_left fun _ =>
    ⟨fun hget => Array.mem_of_getElem? hget, hstore.get?_of_mem⟩

end WellFormed

end Store

end ConceptExpansion
