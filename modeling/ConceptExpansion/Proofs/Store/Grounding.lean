/-
# Key references lead to the ground

A concept is stored only if the targets of its key references are stored or of a sink
kind. Only its own references are looked at, at any depth of lists, and not those
inside the keys that they name. But whatever is stored was admitted under the same
condition, so a walk that follows key references from one stored key to the next meets
no key that is neither stored nor of a sink kind, however far it goes.

No walk comes back to where it began. A reference holds the whole key of its target, so
a key is larger than any that is reached from it. References also lead back in time:
the target of a key reference was stored before the concept that refers to it. Sink
kinds are the exception, because their concepts may be stored later or not at all.
-/

import ConceptExpansion.Proofs.Store.History
import ConceptExpansion.Proofs.Store.Resolution

namespace ConceptExpansion

namespace Store

variable {store next : Store} {entry : Entry} {key target : Key}

/-! ## Walks along key references -/

/-- The key is stored, and a key reference leads from it to the target. -/
structure Descends (store : Store) (key target : Key) : Prop where
  stored : ∃ entry ∈ store.entries, entry.key = key
  mentions : key.Mentions target

/-- A walk leads to smaller and smaller keys. -/
theorem sizeOf_lt_of_descends (h : Relation.TransGen store.Descends key target) :
    sizeOf target < sizeOf key := by
  induction h with
  | single hstep => exact hstep.mentions.sizeOf_lt
  | tail _ hstep ih => exact hstep.mentions.sizeOf_lt.trans ih

theorem not_descends_self (store : Store) (key : Key) :
    ¬ Relation.TransGen store.Descends key key :=
  fun h => lt_irrefl _ (sizeOf_lt_of_descends h)

/-- Whatever a walk meets leads somewhere: it was left for a key that is stored. -/
theorem WellFormed.resolves_of_descends (hstore : store.WellFormed)
    (h : Relation.TransGen store.Descends key target) : store.Resolves target := by
  have hlast : ∃ last, store.Descends last target := by
    cases h with
    | single hstep => exact ⟨_, hstep⟩
    | tail _ hstep => exact ⟨_, hstep⟩
  obtain ⟨last, ⟨entry, hentry, rfl⟩, hmentions⟩ := hlast
  exact hstore.resolvable_iff.1
    (hstore.resolvable_of_mentions (hstore.get?_of_mem hentry) hmentions)

/-! ## Back in time -/

/-- Unless it is of a sink kind, the target of a key reference was stored before the
concept that refers to it. -/
def LeadsBack (store : Store) : Prop :=
  ∀ (id : ConceptId) (entry : Entry), store.get? id = some entry →
    ∀ target, entry.key.Mentions target → store.schema.isSink target.kind = false →
      ∃ earlier, store.idOf? target = some earlier ∧ earlier.index < id.index

theorem leadsBack_empty (schema : Schema) : (empty schema).LeadsBack :=
  fun _ _ hget => by cases hget

/-- A new entry refers to what is stored already. -/
theorem LeadsBack.push (h : store.LeadsBack) (hstore : store.WellFormed)
    (hnew : store.find? entry.key = none)
    (hresolved : ∀ target, entry.key.Mentions target → store.resolvable target = true) :
    (store.push entry).LeadsBack := by
  -- The identifier of a target that is stored stays, because the new key is another one.
  have hstays : ∀ {target : Key} {earlier : ConceptId}, store.idOf? target = some earlier →
      (store.push entry).idOf? target = some earlier :=
    (grows_push hstore hnew).idOf?
  intro id other hget target hmentions hsink
  rw [get?_push] at hget
  split at hget
  · next hlast =>
      obtain rfl := Option.some.inj hget
      have hcontains : store.contains target = true := by
        have hresolvable := hresolved target hmentions
        rwa [resolvable, show store.schema.isSink target.kind = false from hsink,
          Bool.or_false] at hresolvable
      rw [contains_iff_isSome_idOf?] at hcontains
      obtain ⟨earlier, hearlier⟩ := Option.isSome_iff_exists.1 hcontains
      obtain ⟨found, hfound, -⟩ := hstore.idOf?_eq_some_iff.1 hearlier
      refine ⟨earlier, hstays hearlier, ?_⟩
      rw [hlast]
      exact (Array.getElem?_eq_some_iff.1 hfound).1
  · obtain ⟨earlier, hearlier, hlt⟩ := h id other hget target hmentions hsink
    exact ⟨earlier, hstays hearlier, hlt⟩

/-- A payload says nothing about key references. -/
theorem LeadsBack.setPayload (h : store.LeadsBack) {id : ConceptId}
    (hget : store.get? id = some entry) (payload : Attributes) :
    (store.setPayload id payload).LeadsBack := by
  intro other found hfound target hmentions hsink
  have hkey : ∃ old, store.get? other = some old ∧ old.key = found.key := by
    rw [get?_setPayload] at hfound
    split at hfound
    · next hsame =>
        rw [hget, Option.map_some] at hfound
        obtain rfl := Option.some.inj hfound
        exact ⟨entry, hsame ▸ hget, rfl⟩
    · exact ⟨found, hfound, rfl⟩
  obtain ⟨old, hold, hkey⟩ := hkey
  exact h other old hold target (hkey ▸ hmentions) hsink

/-- Admission goes on leading back. -/
theorem LeadsBack.insert (h : store.LeadsBack) (hstore : store.WellFormed) {concept : Concept}
    {origin : Origin} {admission : Admission}
    (hinsert : store.insert concept origin = .ok (admission, next)) : next.LeadsBack := by
  obtain ⟨kind, -, hmissing, hinsertion⟩ := insert_eq_ok_iff.1 hinsert
  cases hinsertion with
  | admitted hid hnew =>
      apply h.push hstore hnew
      intro target hmentions
      exact (missingTarget?_eq_none_iff store concept).1 hmissing target
        (Key.mem_refs_iff.2 hmentions)
  | alreadyPresent => exact h
  | merged hfind => exact h.setPayload (hstore.find?_eq_some_iff.1 hfind).1 _

theorem Reachable.leadsBack (h : store.Reachable) : store.LeadsBack := by
  induction h with
  | empty schema => exact leadsBack_empty schema
  | insert hstore hinsert ih => exact ih.insert hstore.wellFormed hinsert

/-- Every key that is reached from a stored one by following key references, from one
stored key to the next, is stored or of a sink kind. The target of a key reference has a
smaller identifier than the concept that refers to it, unless it is of a sink kind, and
no stored key is reached from itself. -/
theorem Reachable.keys_grounded (h : store.Reachable) (hentry : entry ∈ store.entries) :
    (∀ target, Relation.TransGen store.Descends entry.key target → store.Resolves target) ∧
    (∀ target, entry.key.Mentions target → store.schema.isSink target.kind = false →
      ∃ id, store.idOf? target = some id ∧ id.index < entry.id.index) ∧
    ¬ Relation.TransGen store.Descends entry.key entry.key := by
  refine ⟨?_, ?_, ?_⟩
  · exact fun target => h.wellFormed.resolves_of_descends
  · exact h.leadsBack entry.id entry (h.wellFormed.get?_of_mem hentry)
  · exact store.not_descends_self entry.key

end Store

/-! ## An archive of folders -/

namespace Folders

/-- Folders, each with the list of what it is filed under, and labels. -/
def schema : Schema :=
  .ofKinds [{ name := "F", keyFields := ["under"] },
    { name := "L", keyFields := ["name"], sink := true }]

/-- The folder that is filed under these. -/
def folder (under : List Value) : Concept :=
  { kind := "F", fields := [.list under] }

/-- The outermost folder. -/
def root : Concept := folder []

/-- A folder in the outermost one. -/
def drawer : Concept := folder [root.reference]

/-- A folder in that, which bears a label. -/
def file : Concept := folder [.list [drawer.reference], .ref "L" [.string "old"]]

/-- The three folders, and the label, which comes last. -/
def cabinet : Store :=
  ((Store.empty schema).insertAll
    [(root, .seed 0), (drawer, .seed 1), (file, .seed 2),
      ({ kind := "L", fields := [.string "old"] }, .seed 3)]).2

theorem cabinet_reachable : cabinet.Reachable :=
  (Store.Reachable.empty schema).insertAll _

/-- From the innermost folder a walk leads to the outermost one, by way of the drawer,
which was stored before the file. -/
theorem file_grounded : cabinet.Resolves root.key ∧
    (∃ id, cabinet.idOf? drawer.key = some id ∧ id.index < 2) ∧
    ¬ Relation.TransGen cabinet.Descends file.key file.key := by
  have hstored : ∀ key, (cabinet.entries.any fun entry => entry.key = key) = true →
      ∃ entry ∈ cabinet.entries, entry.key = key := by
    intro key hany
    obtain ⟨entry, hentry, hkey⟩ := Array.any_eq_true'.1 hany
    exact ⟨entry, hentry, of_decide_eq_true hkey⟩
  have hdrawer : file.key.Mentions drawer.key :=
    ⟨_, List.mem_singleton_self _, .item List.mem_cons_self (.item List.mem_cons_self .ref)⟩
  have hroot : drawer.key.Mentions root.key :=
    ⟨_, List.mem_singleton_self _, .item List.mem_cons_self .ref⟩
  have hwalk : Relation.TransGen cabinet.Descends file.key root.key :=
    .tail (.single ⟨hstored _ (by cbv), hdrawer⟩) ⟨hstored _ (by cbv), hroot⟩
  have hany : (cabinet.entries.any fun entry => entry.key = file.key ∧ entry.id.index = 2) =
      true := by cbv
  obtain ⟨entry, hentry, hfile⟩ := Array.any_eq_true'.1 hany
  obtain ⟨hkey, hindex⟩ := of_decide_eq_true hfile
  obtain ⟨hresolves, hearlier, hself⟩ := cabinet_reachable.keys_grounded hentry
  rw [hkey] at hresolves hearlier hself
  rw [hindex] at hearlier
  exact ⟨hresolves _ hwalk, hearlier _ hdrawer (by decide), hself⟩

end Folders

end ConceptExpansion
