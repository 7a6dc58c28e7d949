/-
# One set of concepts, seen from many sides

A store says the same thing several times over: the array of entries, the index of
keys and the index of every kind all tell which concepts are stored, and each
lookup reads one of them. An admission writes all three when the key is new,
rewrites a single payload when a concept is described once more, and writes
nothing when it fails. So whatever has been offered to a store that was empty to
begin with, and however often it refused, the three agree, and it does not matter
which of them a lookup reads.
-/

import ConceptExpansion.Proofs.Store.History
import ConceptExpansion.Proofs.Store.Listing

namespace ConceptExpansion

theorem Schema.arity_of_validate {schema : Schema} {concept : Concept} {kind : KindDef}
    (h : schema.validate concept = .ok kind) : kind.arity = concept.fields.length := by
  unfold Schema.validate at h
  split at h
  · cases h
  · split at h
    · next harity => rw [← Except.ok.inj h, harity]
    · cases h

/-! ## What the array and the indexes say -/

/-- An entry has the key of its concept, whose kind is declared with as many key
fields as the concept has, and its cumulative attributes are written as sets. -/
structure Entry.Fits (schema : Schema) (entry : Entry) : Prop where
  key : entry.key = entry.concept.key
  declared : ∃ kind, schema.get? entry.concept.kind = some kind ∧
    kind.arity = entry.concept.fields.length
  cumulative : ∀ name value, schema.isCumulative entry.concept.kind name = true →
    entry.concept.attribute? name = some value →
      ∃ items, value = .list items ∧ Value.Ascending items

namespace Store

/-- Identifiers are places in the array, no key is there twice, and the indexes hold
the keys that are there with their identifiers: the one all of them, the other,
under every kind, those of the kind. -/
structure Indexed (store : Store) : Prop where
  position : ∀ (index : Nat) (entry : Entry), store.entries[index]? = some entry →
    entry.id.index = index
  nodup : (store.entries.toList.map (·.key)).Nodup
  byKey : ∀ (key : Key) (id : ConceptId), store.byKey[key]? = some id ↔
    ∃ entry ∈ store.entries, entry.key = key ∧ entry.id = id
  byKind : ∀ (kind : String) (key : Key) (id : ConceptId),
    (∃ index, store.byKind[kind]? = some index ∧ index[key]? = some id) ↔
      key.kind = kind ∧ ∃ entry ∈ store.entries, entry.key = key ∧ entry.id = id

/-- Every lookup answers as a search through the entries would. -/
structure ViewsAgree (store : Store) : Prop where
  get? : ∀ id entry, store.get? id = some entry ↔ entry ∈ store.entries ∧ entry.id = id
  find? : ∀ key entry, store.find? key = some entry ↔ entry ∈ store.entries ∧ entry.key = key
  idOf? : ∀ key, store.idOf? key = (store.find? key).map (·.id)
  contains : ∀ key, store.contains key = (store.find? key).isSome
  ofKind : ∀ kind,
    (store.ofKind kind).Perm (store.entries.toList.filter fun entry => entry.key.kind = kind)
  ofKind_ascend : ∀ kind, (store.ofKind kind).Pairwise fun a b => a.key.compare b.key = .lt
  countOfKind : ∀ kind, store.countOfKind kind = (store.ofKind kind).length
  keys : store.keys.Perm (store.entries.toList.map (·.key))
  keys_ascend : store.keys.Pairwise fun a b => a.compare b = .lt
  size : store.size = store.keys.length

/-- The store over this schema is one set of concepts: its entries fit the schema, its
indexes are those of its entries, and its lookups agree. -/
structure Consistent (schema : Schema) (store : Store) : Prop where
  sameSchema : store.schema = schema
  fits : ∀ entry ∈ store.entries, entry.Fits schema
  indexed : store.Indexed
  views : store.ViewsAgree

/-! ## Lookups -/

variable {store : Store}

theorem keys_ascend (store : Store) : store.keys.Pairwise fun a b => a.compare b = .lt :=
  Std.TreeMap.ordered_keys

theorem keysOfKind_ascend (store : Store) (kind : String) :
    (store.keysOfKind kind).Pairwise fun a b => a.1.compare b.1 = .lt := by
  unfold keysOfKind
  cases store.byKind[kind]? with
  | none => exact .nil
  | some index => exact Std.TreeMap.ordered_keys_toList

theorem countOfKind_eq_length (store : Store) (kind : String) :
    store.countOfKind kind = (store.keysOfKind kind).length := by
  unfold countOfKind keysOfKind
  cases store.byKind[kind]? with
  | none => rfl
  | some index => exact Std.TreeMap.length_toList.symm

namespace WellFormed

theorem mem_entries_iff (hstore : store.WellFormed) {id : ConceptId} {entry : Entry} :
    store.get? id = some entry ↔ entry ∈ store.entries ∧ entry.id = id := by
  constructor
  · intro hget
    exact ⟨Array.mem_of_getElem? hget, hstore.id_of_get? hget⟩
  · rintro ⟨hentry, rfl⟩
    exact hstore.get?_of_mem hentry

theorem find?_iff_mem (hstore : store.WellFormed) {key : Key} {entry : Entry} :
    store.find? key = some entry ↔ entry ∈ store.entries ∧ entry.key = key := by
  rw [hstore.find?_eq_some_iff, hstore.mem_entries_iff]
  simp

theorem idOf?_iff_mem (hstore : store.WellFormed) {key : Key} {id : ConceptId} :
    store.idOf? key = some id ↔ ∃ entry ∈ store.entries, entry.key = key ∧ entry.id = id := by
  rw [hstore.idOf?_eq_some_iff]
  apply exists_congr
  intro entry
  rw [hstore.mem_entries_iff]
  tauto

theorem idOf?_eq_map_find? (hstore : store.WellFormed) (key : Key) :
    store.idOf? key = (store.find? key).map (·.id) := by
  cases hfind : store.find? key with
  | none => exact hstore.find?_eq_none_iff.1 hfind
  | some entry => exact hstore.idOf?_of_find? hfind

theorem indexed (hstore : store.WellFormed) : store.Indexed where
  position _ _ := hstore.index_id
  nodup := hstore.nodup_keys
  byKey _ _ := hstore.idOf?_iff_mem
  byKind kind key id := by
    rw [← mem_keysOfKind_iff, hstore.mem_keysOfKind, hstore.idOf?_iff_mem]

theorem viewsAgree (hstore : store.WellFormed) : store.ViewsAgree where
  get? _ _ := hstore.mem_entries_iff
  find? _ _ := hstore.find?_iff_mem
  idOf? := hstore.idOf?_eq_map_find?
  contains key := by
    rw [contains_iff_isSome_idOf?, hstore.idOf?_eq_map_find?, Option.isSome_map]
  ofKind := hstore.ofKind_perm
  ofKind_ascend kind := by
    have hkeys : ((store.ofKind kind).map (·.key)).Pairwise fun a b => a.compare b = .lt := by
      rw [hstore.map_key_ofKind, List.pairwise_map]
      exact store.keysOfKind_ascend kind
    exact List.pairwise_map.1 hkeys
  countOfKind kind := by
    have hlengths := congrArg List.length (hstore.map_key_ofKind kind)
    rw [List.length_map, List.length_map] at hlengths
    rw [countOfKind_eq_length, hlengths]
  keys := hstore.keys_perm
  keys_ascend := store.keys_ascend
  size := hstore.length_keys.symm

theorem fits (hstore : store.WellFormed) {entry : Entry} (hentry : entry ∈ store.entries) :
    entry.Fits store.schema := by
  have hget := hstore.get?_of_mem hentry
  obtain ⟨kind, hvalid, -⟩ := hstore.valid hget
  exact
    { key := (hstore.concept_key hget).symm
      declared := ⟨kind, Schema.get?_of_validate hvalid, Schema.arity_of_validate hvalid⟩
      cumulative := fun _ _ hname hvalue => hstore.isSet_of_cumulative hget hname hvalue }

theorem consistent (hstore : store.WellFormed) : store.Consistent store.schema where
  sameSchema := rfl
  fits _ := hstore.fits
  indexed := hstore.indexed
  views := hstore.viewsAgree

end WellFormed

/-! ## Any sequence of admissions -/

/-- Whatever is offered to an empty store, one offer after the other, and whichever of
the offers it refuses, it remains one set of concepts. -/
theorem insertAll_consistent (schema : Schema) (attempts : List (Concept × Origin)) :
    ((empty schema).insertAll attempts).2.Consistent schema := by
  obtain ⟨hstore, hgrows⟩ := (wellFormed_empty schema).insertAll attempts
  have hschema : ((empty schema).insertAll attempts).2.schema = schema := hgrows.schema
  have hconsistent := hstore.consistent
  rwa [hschema] at hconsistent

end Store

end ConceptExpansion
