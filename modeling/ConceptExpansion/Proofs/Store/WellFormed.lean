/-
# The views of a store agree

A store keeps its concepts in an array and two indexes beside it. `WellFormed`
says that all three describe one set of concepts, that every stored concept
fits the schema with its cumulative attributes written as sets, and that its
key references lead somewhere. The empty store is well-formed and admission
keeps a store so, hence every store that is ever reached is.
-/

import ConceptExpansion.Proofs.Store.Payload

namespace ConceptExpansion.Store

variable {store next : Store}

/-! ## Looking up after a change -/

theorem compare_eq_iff {a b : Key} : Ord.compare a b = .eq ↔ a = b :=
  Std.LawfulEqOrd.compare_eq_iff_eq

theorem id_ext {a b : ConceptId} (h : a.index = b.index) : a = b := by
  cases a
  cases b
  simpa using h

theorem get?_push (store : Store) (entry : Entry) (id : ConceptId) :
    (store.push entry).get? id =
      if id.index = store.size then some entry else store.get? id :=
  Array.getElem?_push

theorem idOf?_push (store : Store) (entry : Entry) (key : Key) :
    (store.push entry).idOf? key =
      if key = entry.key then some entry.id else store.idOf? key := by
  show (store.byKey.insert entry.key entry.id)[key]? = _
  rw [Std.TreeMap.getElem?_insert]
  by_cases hkey : key = entry.key
  · rw [if_pos (compare_eq_iff.2 hkey.symm), if_pos hkey]
  · rw [if_neg fun h => hkey (compare_eq_iff.1 h).symm, if_neg hkey]
    rfl

theorem get?_setPayload (store : Store) (id other : ConceptId) (payload : Attributes) :
    (store.setPayload id payload).get? other =
      if other = id then
        (store.get? id).map fun entry =>
          { entry with concept := entry.concept.setPayload payload }
      else store.get? other := by
  show (store.entries.modify id.index _)[other.index]? = _
  rw [Array.getElem?_modify]
  by_cases hother : other = id
  · rw [if_pos hother, if_pos (congrArg ConceptId.index hother.symm), hother]
    rfl
  · rw [if_neg hother, if_neg fun h => hother (id_ext h.symm)]
    rfl

/-- After a payload has been written, an entry that is found is the one with the new
payload or was found before. -/
theorem get?_setPayload_cases {id other : ConceptId} {entry found : Entry}
    {payload : Attributes} (hget : store.get? id = some entry)
    (h : (store.setPayload id payload).get? other = some found) :
    found = { entry with concept := entry.concept.setPayload payload } ∨
      store.get? other = some found := by
  rw [get?_setPayload] at h
  split at h
  · rw [hget, Option.map_some] at h
    exact .inl (Option.some.inj h).symm
  · exact .inr h

/-- To write the payload that is stored changes nothing. -/
theorem setPayload_self {entry : Entry} (hget : store.get? entry.id = some entry) :
    store.setPayload entry.id entry.concept.payload = store := by
  have hentries : (store.entries.modify entry.id.index fun old =>
      { old with concept := old.concept.setPayload entry.concept.payload }) = store.entries := by
    apply Array.ext_getElem?
    intro index
    rw [Array.getElem?_modify]
    split
    · next hindex =>
        rw [← hindex, show store.entries[entry.id.index]? = some entry from hget]
        rfl
    · rfl
  unfold setPayload
  rw [hentries]

/-- Of two payloads written one after the other the last one counts. -/
theorem setPayload_setPayload (store : Store) (id : ConceptId) (first second : Attributes) :
    (store.setPayload id first).setPayload id second = store.setPayload id second := by
  unfold setPayload
  congr 1
  apply Array.ext_getElem?
  intro index
  simp only [Array.getElem?_modify]
  split
  · cases store.entries[index]? <;> rfl
  · rfl

/-- A new concept may as well be stored with its later payload. -/
theorem setPayload_push (store : Store) {entry : Entry} (hid : entry.id.index = store.size)
    (payload : Attributes) :
    (store.push entry).setPayload entry.id payload =
      store.push { entry with concept := entry.concept.setPayload payload } := by
  unfold setPayload push
  congr 1
  apply Array.ext_getElem?
  intro index
  rw [Array.getElem?_modify, Array.getElem?_push, Array.getElem?_push, hid, size]
  by_cases hindex : index = store.entries.size
  · rw [if_pos hindex.symm, if_pos hindex, if_pos hindex]
    rfl
  · rw [if_neg (Ne.symm hindex), if_neg hindex, if_neg hindex]

/-- A key is listed under a kind if the index of the kind has it. -/
theorem mem_keysOfKind_iff (store : Store) {kind : String} {key : Key} {id : ConceptId} :
    (key, id) ∈ store.keysOfKind kind ↔
      ∃ index, store.byKind[kind]? = some index ∧ index[key]? = some id := by
  unfold keysOfKind
  cases store.byKind[kind]? with
  | none => simp
  | some index => simp [Std.TreeMap.mem_toList_iff_getElem?_eq_some]

theorem mem_keysOfKind_push (store : Store) (entry : Entry) {kind : String} {key : Key}
    {id : ConceptId} :
    (key, id) ∈ (store.push entry).keysOfKind kind ↔
      if kind = entry.key.kind ∧ key = entry.key then id = entry.id
      else (key, id) ∈ store.keysOfKind kind := by
  rw [mem_keysOfKind_iff, mem_keysOfKind_iff]
  show (∃ index, (store.byKind.alter entry.key.kind _)[kind]? = some index ∧ _) ↔ _
  rw [Std.TreeMap.getElem?_alter]
  by_cases hkind : kind = entry.key.kind
  · subst hkind
    have hlookup : ∀ index : KindIndex, (index.insert entry.key entry.id)[key]? = some id ↔
        if key = entry.key then id = entry.id else index[key]? = some id := fun index => by
      rw [Std.TreeMap.getElem?_insert]
      by_cases hkey : key = entry.key
      · simp [hkey, eq_comm]
      · simp [hkey, Ne.symm hkey]
    cases store.byKind[entry.key.kind]? with
    | none => simp [hlookup]
    | some index => simp [hlookup]
  · have hcompare : Ord.compare entry.key.kind kind ≠ .eq := fun h =>
      hkind (Std.LawfulEqOrd.compare_eq_iff_eq.1 h).symm
    simp [hkind, hcompare]

/-! ## References that lead somewhere -/

theorem contains_iff_isSome_idOf? (store : Store) (key : Key) :
    store.contains key = (store.idOf? key).isSome :=
  Std.TreeMap.contains_eq_isSome_getElem?

theorem missingTarget?_eq_none_iff (store : Store) (concept : Concept) :
    store.missingTarget? concept = none ↔
      ∀ target ∈ concept.keyRefs, store.resolvable target = true := by
  simp [missingTarget?, List.find?_eq_none]

/-- Whether key references lead somewhere depends on the key alone. -/
theorem missingTarget?_congr (store : Store) {a b : Concept} (hkey : a.key = b.key) :
    store.missingTarget? a = store.missingTarget? b := by
  have hfields : a.fields = b.fields := congrArg Key.fields hkey
  unfold missingTarget? Concept.keyRefs
  rw [hfields]

/-- What leads somewhere in one store does so in another over the same kinds, if its
target is stored there too. -/
theorem resolvable_of_contains {a b : Store} {target : Key} (hschema : a.schema = b.schema)
    (hcontains : a.contains target = true → b.contains target = true)
    (h : a.resolvable target = true) : b.resolvable target = true := by
  unfold resolvable at h ⊢
  rw [Bool.or_eq_true] at h ⊢
  exact h.imp hcontains fun hsink => hschema ▸ hsink

theorem resolvable_push {entry : Entry} {target : Key} (h : store.resolvable target = true) :
    (store.push entry).resolvable target = true := by
  have hschema : store.schema = (store.push entry).schema := rfl
  apply resolvable_of_contains hschema (fun hcontains => ?_) h
  rw [contains_iff_isSome_idOf?] at hcontains ⊢
  rw [idOf?_push]
  split
  · rfl
  · exact hcontains

end ConceptExpansion.Store

namespace ConceptExpansion

/-- A concept fits a schema on the strength of its key alone. -/
theorem Schema.validate_congr (schema : Schema) {a b : Concept} {kind : KindDef}
    (hkey : a.key = b.key) (h : schema.validate a = .ok kind) : schema.validate b = .ok kind := by
  have hkind : a.kind = b.kind := congrArg Key.kind hkey
  have hfields : a.fields = b.fields := congrArg Key.fields hkey
  unfold Schema.validate at h ⊢
  rw [← hkind, ← hfields]
  split at h
  · cases h
  · split at h
    · next harity => rw [if_pos harity, ← Except.ok.inj h]
    · cases h

namespace Store

variable {store next : Store}

/-! ## The invariant -/

/-- The array and the indexes of a store describe one set of concepts, each of
which fits the schema, is normal and has key references that lead somewhere. -/
structure WellFormed (store : Store) : Prop where
  index_id : ∀ {index : Nat} {entry : Entry},
    store.entries[index]? = some entry → entry.id.index = index
  concept_key : ∀ {id : ConceptId} {entry : Entry},
    store.get? id = some entry → entry.concept.key = entry.key
  idOf?_eq_some_iff : ∀ {key : Key} {id : ConceptId},
    store.idOf? key = some id ↔ ∃ entry, store.get? id = some entry ∧ entry.key = key
  mem_keysOfKind : ∀ {kind : String} {key : Key} {id : ConceptId},
    (key, id) ∈ store.keysOfKind kind ↔ key.kind = kind ∧ store.idOf? key = some id
  valid : ∀ {id : ConceptId} {entry : Entry}, store.get? id = some entry →
    ∃ kind, store.schema.validate entry.concept = .ok kind ∧
      kind.Normal entry.concept.payload
  resolved : ∀ {id : ConceptId} {entry : Entry},
    store.get? id = some entry → store.missingTarget? entry.concept = none

theorem wellFormed_empty (schema : Schema) : (empty schema).WellFormed where
  index_id h := by cases h
  concept_key h := by cases h
  idOf?_eq_some_iff := by simp [idOf?, get?, empty]
  mem_keysOfKind := by simp [keysOfKind, idOf?, empty]
  valid h := by cases h
  resolved h := by cases h

namespace WellFormed

theorem id_of_get? (hstore : store.WellFormed) {id : ConceptId} {entry : Entry}
    (h : store.get? id = some entry) : entry.id = id :=
  id_ext (hstore.index_id h)

theorem get?_of_mem (hstore : store.WellFormed) {entry : Entry} (h : entry ∈ store.entries) :
    store.get? entry.id = some entry := by
  obtain ⟨index, hindex⟩ := Array.mem_iff_getElem?.1 h
  unfold get?
  rw [hstore.index_id hindex, hindex]

theorem concept_key_of_mem (hstore : store.WellFormed) {entry : Entry}
    (h : entry ∈ store.entries) : entry.concept.key = entry.key :=
  hstore.concept_key (hstore.get?_of_mem h)

/-- A key finds the entry that has it, and there is only one. -/
theorem find?_eq_some_iff (hstore : store.WellFormed) {key : Key} {entry : Entry} :
    store.find? key = some entry ↔ store.get? entry.id = some entry ∧ entry.key = key := by
  unfold find?
  rw [Option.bind_eq_some_iff]
  constructor
  · rintro ⟨id, hid, hget⟩
    obtain ⟨other, hother, hkey⟩ := hstore.idOf?_eq_some_iff.1 hid
    obtain rfl : other = entry := Option.some.inj (hother.symm.trans hget)
    exact ⟨hstore.id_of_get? hget ▸ hget, hkey⟩
  · rintro ⟨hget, hkey⟩
    exact ⟨entry.id, hstore.idOf?_eq_some_iff.2 ⟨entry, hget, hkey⟩, hget⟩

theorem find?_eq_none_iff (hstore : store.WellFormed) {key : Key} :
    store.find? key = none ↔ store.idOf? key = none := by
  unfold find?
  rw [Option.bind_eq_none_iff]
  constructor
  · intro h
    cases hid : store.idOf? key with
    | none => rfl
    | some id =>
        obtain ⟨entry, hget, -⟩ := hstore.idOf?_eq_some_iff.1 hid
        rw [h id hid] at hget
        cases hget
  · intro hid id h
    rw [hid] at h
    cases h

theorem idOf?_of_find? (hstore : store.WellFormed) {key : Key} {entry : Entry}
    (hfind : store.find? key = some entry) : store.idOf? key = some entry.id := by
  obtain ⟨hget, hkey⟩ := hstore.find?_eq_some_iff.1 hfind
  exact hstore.idOf?_eq_some_iff.2 ⟨entry, hget, hkey⟩

/-- A concept whose key is stored has no key reference to wait for. -/
theorem missingTarget?_of_find? (hstore : store.WellFormed) {concept : Concept} {entry : Entry}
    (hfind : store.find? concept.key = some entry) : store.missingTarget? concept = none := by
  obtain ⟨hget, hkey⟩ := hstore.find?_eq_some_iff.1 hfind
  have hsame : concept.key = entry.concept.key := hkey.symm.trans (hstore.concept_key hget).symm
  rw [missingTarget?_congr store hsame]
  exact hstore.resolved hget

theorem contains_iff (hstore : store.WellFormed) {key : Key} :
    store.contains key = true ↔ ∃ entry, store.find? key = some entry := by
  rw [contains_iff_isSome_idOf?]
  cases hfind : store.find? key with
  | none => simp [hstore.find?_eq_none_iff.1 hfind]
  | some entry => simp [hstore.idOf?_of_find? hfind]

theorem mem_keys (hstore : store.WellFormed) {key : Key} :
    key ∈ store.keys ↔ ∃ entry, store.find? key = some entry := by
  rw [← hstore.contains_iff]
  exact Std.TreeMap.mem_keys

/-- The concepts of a kind are the stored concepts whose keys are of the kind. -/
theorem mem_ofKind (hstore : store.WellFormed) {kind : String} {entry : Entry} :
    entry ∈ store.ofKind kind ↔ store.get? entry.id = some entry ∧ entry.key.kind = kind := by
  unfold ofKind
  rw [List.mem_filterMap]
  constructor
  · rintro ⟨⟨key, id⟩, hmem, hget⟩
    obtain ⟨hkind, hid⟩ := hstore.mem_keysOfKind.1 hmem
    obtain ⟨other, hother, hkey⟩ := hstore.idOf?_eq_some_iff.1 hid
    obtain rfl : other = entry := Option.some.inj (hother.symm.trans hget)
    exact ⟨hstore.id_of_get? hget ▸ hget, hkey ▸ hkind⟩
  · rintro ⟨hget, hkind⟩
    have hid := hstore.idOf?_eq_some_iff.2 ⟨entry, hget, rfl⟩
    exact ⟨(entry.key, entry.id), hstore.mem_keysOfKind.2 ⟨hkind, hid⟩, hget⟩

/-- A new entry at the end keeps a store well-formed, if its key is new. -/
theorem push (hstore : store.WellFormed) {entry : Entry} {kind : KindDef}
    (hid : entry.id.index = store.size) (hkey : entry.concept.key = entry.key)
    (hnew : store.find? entry.key = none)
    (hvalid : store.schema.validate entry.concept = .ok kind)
    (hnormal : kind.Normal entry.concept.payload)
    (hresolved : store.missingTarget? entry.concept = none) :
    (store.push entry).WellFormed where
  index_id {index other} h := by
    have hpush : (store.push entry).entries[index]? = _ := Array.getElem?_push
    rw [h] at hpush
    split at hpush
    · next hindex => rw [Option.some.inj hpush, hid, hindex]; rfl
    · exact hstore.index_id hpush.symm
  concept_key {id other} h := by
    rw [get?_push] at h
    split at h
    · rw [← Option.some.inj h, hkey]
    · exact hstore.concept_key h
  idOf?_eq_some_iff {key id} := by
    rw [idOf?_push]
    simp only [get?_push]
    have hfresh : store.get? entry.id = none := by
      unfold get?
      rw [hid]
      exact Array.getElem?_size
    by_cases hkeys : key = entry.key
    · subst hkeys
      rw [if_pos rfl, Option.some.injEq]
      constructor
      · rintro rfl
        exact ⟨entry, if_pos hid, rfl⟩
      · rintro ⟨other, hother, hkey'⟩
        split at hother
        · next hindex => exact id_ext (hid.trans hindex.symm)
        · have hold := hstore.idOf?_eq_some_iff.2 ⟨other, hother, hkey'⟩
          rw [hstore.find?_eq_none_iff.1 hnew] at hold
          cases hold
    · rw [if_neg hkeys, hstore.idOf?_eq_some_iff]
      constructor
      · rintro ⟨other, hother, hkey'⟩
        refine ⟨other, ?_, hkey'⟩
        rw [if_neg, hother]
        intro hindex
        rw [show id = entry.id from id_ext (hindex.trans hid.symm), hfresh] at hother
        cases hother
      · rintro ⟨other, hother, hkey'⟩
        split at hother
        · exact absurd (hkey'.symm.trans (congrArg Entry.key (Option.some.inj hother).symm)) hkeys
        · exact ⟨other, hother, hkey'⟩
  mem_keysOfKind {kind' key id} := by
    rw [mem_keysOfKind_push, idOf?_push]
    by_cases hkeys : key = entry.key
    · subst hkeys
      by_cases hkind : kind' = entry.key.kind
      · simp [hkind, eq_comm]
      · have hold : ¬ (entry.key, id) ∈ store.keysOfKind kind' := fun h =>
          hkind (hstore.mem_keysOfKind.1 h).1.symm
        simp [hkind, hold, Ne.symm hkind]
    · simp [hkeys, hstore.mem_keysOfKind]
  valid {id other} h := by
    rw [get?_push] at h
    split at h
    · rw [← Option.some.inj h]
      exact ⟨kind, hvalid, hnormal⟩
    · exact hstore.valid h
  resolved {id other} h := by
    have hold : store.missingTarget? other.concept = none := by
      rw [get?_push] at h
      split at h
      · rw [← Option.some.inj h]
        exact hresolved
      · exact hstore.resolved h
    rw [missingTarget?_eq_none_iff] at hold ⊢
    exact fun target htarget => resolvable_push (hold target htarget)

/-- A normal payload in place of a stored one keeps a store well-formed. -/
theorem setPayload (hstore : store.WellFormed) {id : ConceptId} {entry : Entry}
    {kind : KindDef} {payload : Attributes} (hget : store.get? id = some entry)
    (hvalid : store.schema.validate entry.concept = .ok kind)
    (hnormal : kind.Normal payload) : (store.setPayload id payload).WellFormed where
  index_id {index found} h := by
    have hmodify : (store.setPayload id payload).entries[index]? = _ := Array.getElem?_modify
    rw [h] at hmodify
    split at hmodify
    · obtain ⟨old, hold, rfl⟩ := Option.map_eq_some_iff.1 hmodify.symm
      show old.id.index = index
      exact hstore.index_id hold
    · exact hstore.index_id hmodify.symm
  concept_key h := by
    obtain rfl | h := get?_setPayload_cases hget h
    · show entry.concept.key = entry.key
      exact hstore.concept_key hget
    · exact hstore.concept_key h
  idOf?_eq_some_iff {key other} := by
    rw [show (store.setPayload id payload).idOf? key = store.idOf? key from rfl,
      hstore.idOf?_eq_some_iff]
    simp only [get?_setPayload]
    by_cases hother : other = id
    · subst hother
      simp [hget]
    · simp [hother]
  mem_keysOfKind := hstore.mem_keysOfKind
  valid h := by
    obtain rfl | h := get?_setPayload_cases hget h
    · exact ⟨kind, Schema.validate_congr _ rfl hvalid, hnormal⟩
    · exact hstore.valid h
  resolved h := by
    obtain rfl | h := get?_setPayload_cases hget h
    · show store.missingTarget? entry.concept = none
      exact hstore.resolved hget
    · exact hstore.resolved h

end WellFormed

end Store

end ConceptExpansion
