/-
# Ranges of keys

The keys of a kind are listed in ascending order, and among keys of one kind the first
field counts before all others. So those with a given first field stand together: what
comes before them has no field or a smaller one, and what comes after them a greater one.
To skip the smaller keys and to read on while the first field is the wanted one finds all
of them, whatever else is stored and however many fields the kind has.
-/

import ConceptExpansion.Proofs.Store.Views

namespace ConceptExpansion

/-! ## Initial parts of ordered lists -/

section InitialPart

variable {α : Type} {p : α → Bool}

/-- If what precedes a member with the property has it too, the members with the property
are the initial part of the list. -/
theorem takeWhile_eq_filter {list : List α}
    (h : list.Pairwise fun a b => p b = true → p a = true) :
    list.takeWhile p = list.filter p := by
  induction list with
  | nil => rfl
  | cons a rest ih =>
      obtain ⟨hfirst, hrest⟩ := List.pairwise_cons.1 h
      by_cases ha : p a = true
      · rw [List.takeWhile_cons_of_pos ha, List.filter_cons_of_pos ha, ih hrest]
      · have hnone : rest.filter p = [] :=
          List.filter_eq_nil_iff.2 fun b hb hpb => ha (hfirst b hb hpb)
        rw [List.takeWhile_cons_of_neg ha, List.filter_cons_of_neg ha, hnone]

/-- The rest of the list then has the members without the property. -/
theorem dropWhile_eq_filter {list : List α}
    (h : list.Pairwise fun a b => p b = true → p a = true) :
    list.dropWhile p = list.filter fun a => !p a := by
  induction list with
  | nil => rfl
  | cons a rest ih =>
      obtain ⟨hfirst, hrest⟩ := List.pairwise_cons.1 h
      by_cases ha : p a = true
      · rw [List.dropWhile_cons_of_pos ha, List.filter_cons_of_neg (by simp [ha]), ih hrest]
      · have hall : rest.filter (fun b => !p b) = rest :=
          List.filter_eq_self.2 fun b hb => by simpa using fun hpb => ha (hfirst b hb hpb)
        rw [List.dropWhile_cons_of_neg ha, List.filter_cons_of_pos (by simpa using ha), hall]

end InitialPart

/-! ## The first field of a key -/

namespace Key

variable {a b : Key} {kind : String} {first : Value}

/-- A key comes before all keys of its kind with a given first field if it has no field or
a smaller one. -/
theorem compare_least_eq_lt_iff (hkind : a.kind = kind) :
    a.compare ⟨kind, [first]⟩ = .lt ↔ ∀ value ∈ a.fields.head?, value.compare first = .lt := by
  obtain ⟨kind', fields⟩ := a
  obtain rfl : kind' = kind := hkind
  cases fields with
  | nil => simp [compare, Value.compareAll]
  | cons value rest => cases rest <;> simp [compare, Value.compareAll, Ordering.then_eq_lt]

/-- Of two keys of a kind the one before has no field or one that is at most that of the
other. -/
theorem compare_head_of_compare_lt (hkind : a.kind = b.kind) (h : a.compare b = .lt)
    {value value' : Value} (hvalue : a.fields.head? = some value)
    (hvalue' : b.fields.head? = some value') :
    value.compare value' = .lt ∨ value = value' := by
  obtain ⟨kind, fields⟩ := a
  obtain ⟨kind', fields'⟩ := b
  obtain rfl : kind = kind' := hkind
  cases fields with
  | nil => cases hvalue
  | cons first rest =>
      cases fields' with
      | nil => cases hvalue'
      | cons first' rest' =>
          obtain rfl : first = value := Option.some.inj hvalue
          obtain rfl : first' = value' := Option.some.inj hvalue'
          simp only [compare, Std.ReflCmp.compare_self, Ordering.eq_then, Value.compareAll,
            Ordering.then_eq_lt] at h
          exact h.imp id fun h => Value.eq_of_compare_eq h.1

end Key

/-! ## The scan -/

namespace Store

variable {store : Store} {kind : String} {first : Value}

/-- The scan of a kind finds the keys of the kind with the given first field. -/
theorem WellFormed.keysWithFirstField_eq (hstore : store.WellFormed) (kind : String)
    (first : Value) :
    store.keysWithFirstField kind first =
      (store.keysOfKind kind).filter fun listed => listed.1.fields.head? == some first := by
  have hascend : (store.keysOfKind kind).Pairwise fun a b =>
      (a.1.kind = kind ∧ b.1.kind = kind) ∧ a.1.compare b.1 = .lt := by
    refine (store.keysOfKind_ascend kind).imp_of_mem fun {a b} ha hb hlt => ⟨⟨?_, ?_⟩, hlt⟩
    · exact (hstore.mem_keysOfKind.1 ha).1
    · exact (hstore.mem_keysOfKind.1 hb).1
  have hleast : ∀ {key : Key}, key.kind = kind →
      ((key.compare ⟨kind, [first]⟩ == .lt) = true ↔
        ∀ value ∈ key.fields.head?, value.compare first = .lt) := fun hkind => by
    rw [beq_iff_eq, Key.compare_least_eq_lt_iff hkind]
  unfold keysWithFirstField
  rw [dropWhile_eq_filter, takeWhile_eq_filter, List.filter_filter]
  · refine List.filter_congr fun listed hlisted => ?_
    have hkind := (hstore.mem_keysOfKind.1 hlisted).1
    cases hfirst : listed.1.fields.head? == some first with
    | false => rfl
    | true =>
        have hnot : ¬ (listed.1.compare ⟨kind, [first]⟩ == .lt) = true := by
          rw [hleast hkind, beq_iff_eq.1 hfirst]
          simp [Value.compare_self]
        simpa using hnot
  · refine (hascend.filter _).imp_of_mem fun {a b} ha _ h hb => ?_
    obtain ⟨⟨hkind, hkind'⟩, hlt⟩ := h
    obtain ⟨-, hnot⟩ := List.mem_filter.1 ha
    rw [Bool.not_eq_true', ← Bool.not_eq_true, hleast hkind] at hnot
    cases hvalue : a.1.fields.head? with
    | none => simp [hvalue] at hnot
    | some value =>
        obtain hsmaller | rfl :=
          Key.compare_head_of_compare_lt (hkind.trans hkind'.symm) hlt hvalue (beq_iff_eq.1 hb)
        · simp [hvalue, hsmaller] at hnot
        · exact beq_iff_eq.2 rfl
  · refine hascend.imp fun {a b} h hb => ?_
    obtain ⟨⟨hkind, hkind'⟩, hlt⟩ := h
    exact beq_iff_eq.2 (Std.TransCmp.lt_trans hlt (beq_iff_eq.1 hb))

/-- A concept is found in the range of a first field if it is a stored concept of the kind
with that first field. -/
theorem WellFormed.mem_withFirstField (hstore : store.WellFormed) {entry : Entry} :
    entry ∈ store.withFirstField kind first ↔
      entry ∈ store.entries ∧ entry.key.kind = kind ∧ entry.key.fields.head? = some first := by
  unfold withFirstField
  rw [hstore.keysWithFirstField_eq, List.mem_filterMap]
  constructor
  · rintro ⟨⟨key, id⟩, hmem, hget⟩
    obtain ⟨hlisted, hfirst⟩ := List.mem_filter.1 hmem
    obtain ⟨hkind, hid⟩ := hstore.mem_keysOfKind.1 hlisted
    obtain ⟨found, hfound, hkey⟩ := hstore.idOf?_eq_some_iff.1 hid
    obtain rfl : found = entry := Option.some.inj (hfound.symm.trans hget)
    subst hkey
    exact ⟨Array.mem_of_getElem? hget, hkind, beq_iff_eq.1 hfirst⟩
  · rintro ⟨hentry, hkind, hfirst⟩
    have hget := hstore.get?_of_mem hentry
    have hid := hstore.idOf?_eq_some_iff.2 ⟨entry, hget, rfl⟩
    exact ⟨(entry.key, entry.id), List.mem_filter.2
      ⟨hstore.mem_keysOfKind.2 ⟨hkind, hid⟩, beq_iff_eq.2 hfirst⟩, hget⟩

/-- The scan of a first field lists what is left of the whole kind when all other concepts
are struck out, in the same order. -/
theorem Reachable.withFirstField_eq_filter (h : store.Reachable) (kind : String)
    (first : Value) :
    store.withFirstField kind first =
      (store.ofKind kind).filter fun entry => entry.concept.field? 0 = some first := by
  have hstore := h.wellFormed
  unfold withFirstField ofKind
  rw [hstore.keysWithFirstField_eq, List.filterMap_filter, List.filter_filterMap]
  refine List.filterMap_congr fun listed hlisted => ?_
  obtain ⟨entry, hget, hkey⟩ :=
    hstore.idOf?_eq_some_iff.1 (hstore.mem_keysOfKind.1 hlisted).2
  have hfield : entry.concept.field? 0 = listed.1.fields.head? := by
    rw [← hkey, ← hstore.concept_key hget, List.head?_eq_getElem?]
    rfl
  rw [hget, Option.filter_some, hfield]
  simp only [beq_iff_eq, decide_eq_true_eq]

end Store

/-! ## A card index -/

namespace CardIndex

/-- Boxes, of which there is one, and cards with up to two fields, of which the first is
free. -/
def schema : Schema :=
  .ofKinds [{ name := "Box", keyFields := [] }, { name := "Card", keyFields := ["under", "n"] }]

/-- The box. -/
def box : Concept :=
  { kind := "Box", fields := [] }

/-- A card. -/
def card (under : Value) (n : Int64) : Concept :=
  { kind := "Card", fields := [under, .int n] }

/-- A card under a list with the box in it, between cards under nothing, under a list that
goes on after the box and under the reference to the box. -/
def cards : Store :=
  ((Store.empty schema).insertAll
    [(box, .seed 0), (card (.list [.list [box.reference], .null]) 1, .seed 1),
      (card (.list [.list [box.reference]]) 7, .seed 2), (card box.reference 3, .seed 3),
      (card .null 5, .seed 4), (card (.list [.list [box.reference]]) 2, .seed 5)]).2

/-- The cards under the list with the box stand together, in the order of their numbers;
the box itself has no first field. -/
theorem cards_under_box :
    cards.Reachable ∧
    (cards.withFirstField "Card" (.list [.list [box.reference]])).map (·.id.index) = [5, 2] ∧
    cards.withFirstField "Box" .null = [] := by
  have hcards : cards.Reachable := (Store.Reachable.empty schema).insertAll _
  refine ⟨hcards, ?_, ?_⟩
  · rw [hcards.withFirstField_eq_filter]
    cbv
  · rw [hcards.withFirstField_eq_filter]
    cbv

end CardIndex

end ConceptExpansion
