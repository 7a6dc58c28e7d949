/-
# Precedence and the order of admission

To place concepts by hand one would go through all that are left at every turn, take the
least key whose concept waits for nothing, and only where everything waits the least one
whose key fields do not. `Store.precedence` keeps counters and a list of ready concepts
instead. It places the same keys: also where a concept is placed while it still waits and
its counter runs down afterwards, where one target is referred to twice, and where a
concept refers to itself.

What is done by hand looks at keys and concepts only, never at identifiers. So stores that
hold the same concepts have the same keys in the order of precedence, in whatever order
the concepts were admitted.
-/

import ConceptExpansion.Proofs.Store.DependenciesFirst

namespace ConceptExpansion

/-- The key has the property and comes before all other keys that have it. -/
def Key.IsLeastWith (P : Key → Prop) (key : Key) : Prop :=
  P key ∧ ∀ other, P other → other ≠ key → key.compare other = .lt

namespace Key

variable {P Q : Key → Prop} {a b : Key}

theorem IsLeastWith.eq (ha : IsLeastWith P a) (hb : IsLeastWith P b) : a = b := by
  by_contra hne
  have hlt := ha.2 b hb.1 (Ne.symm hne)
  have hgt := hb.2 a ha.1 hne
  exact absurd (Std.TransCmp.lt_trans hlt hgt) (by simp [Std.ReflCmp.compare_self])

theorem isLeastWith_congr (h : ∀ key, P key ↔ Q key) : IsLeastWith P a ↔ IsLeastWith Q a := by
  obtain rfl : P = Q := funext fun key => propext (h key)
  exact Iff.rfl

/-- In an ascending list the first key with a property is the least one. -/
theorem find?_eq_some_iff {keys : List Key} {p : Key → Bool}
    (hascend : keys.Pairwise fun a b => a.compare b = .lt) {key : Key} :
    keys.find? p = some key ↔ IsLeastWith (fun other => other ∈ keys ∧ p other = true) key := by
  have hfirst : ∀ {key : Key}, keys.find? p = some key →
      IsLeastWith (fun other => other ∈ keys ∧ p other = true) key := by
    intro key hfind
    obtain ⟨hp, before, after, rfl, hbefore⟩ := List.find?_eq_some_iff_append.1 hfind
    refine ⟨⟨List.mem_append_right _ List.mem_cons_self, hp⟩, ?_⟩
    rintro other ⟨hother, hpother⟩ hne
    rcases List.mem_append.1 hother with hmem | hmem
    · exact absurd hpother (by simpa using hbefore other hmem)
    · have hafter := (List.pairwise_append.1 hascend).2.1
      exact (List.pairwise_cons.1 hafter).1 other ((List.mem_cons.1 hmem).resolve_left hne)
  refine ⟨hfirst, fun hleast => ?_⟩
  obtain ⟨found, hfound⟩ := Option.isSome_iff_exists.1
    (List.find?_isSome.2 ⟨key, hleast.1.1, hleast.1.2⟩)
  rw [hfound, (hfirst hfound).eq hleast]

end Key

namespace Store

variable {store : Store} {placed order : List Key} {key : Key}

/-! ## Placing by hand -/

/-- The key is stored and has not been placed yet. -/
def Unplaced (store : Store) (placed : List Key) (key : Key) : Prop :=
  key ∈ store.keys ∧ key ∉ placed

/-- The key to place after those that are placed. -/
inductive ComesNext (store : Store) (placed : List Key) (key : Key) : Prop where
  /-- It is the least key that waits for nothing. -/
  | ready (least : Key.IsLeastWith
      (fun other => store.Unplaced placed other ∧ store.targets other ⊆ placed) key)
  /-- Every key waits for something, and it is the least one whose key fields do not. -/
  | forced (blocked : ∀ other, store.Unplaced placed other → ¬ store.targets other ⊆ placed)
      (least : Key.IsLeastWith
        (fun other => store.Unplaced placed other ∧ store.keyTargets other ⊆ placed) key)

/-- To go on after the placed keys, as long as there is a key to place, leads to the
order. -/
inductive LeadsTo (store : Store) : List Key → List Key → Prop
  | finished {placed : List Key} (last : ∀ key, ¬ store.ComesNext placed key) :
      LeadsTo store placed placed
  | next {placed order : List Key} {key : Key} (first : store.ComesNext placed key)
      (rest : LeadsTo store (placed ++ [key]) order) : LeadsTo store placed order

theorem ComesNext.eq {a b : Key} (ha : store.ComesNext placed a)
    (hb : store.ComesNext placed b) : a = b := by
  cases ha with
  | ready hleast =>
      cases hb with
      | ready hleast' => exact hleast.eq hleast'
      | forced hblocked _ => exact absurd hleast.1.2 (hblocked a hleast.1.1)
  | forced hblocked hleast =>
      cases hb with
      | ready hleast' => exact absurd hleast'.1.2 (hblocked b hleast'.1.1)
      | forced _ hleast' => exact hleast.eq hleast'

/-- There is one way to go on, so it leads to one order. -/
theorem LeadsTo.eq {other : List Key} (h : store.LeadsTo placed order)
    (hother : store.LeadsTo placed other) : order = other := by
  induction h with
  | finished hlast =>
      cases hother with
      | finished => rfl
      | next hfirst => exact absurd hfirst (hlast _)
  | next hfirst _ ih =>
      cases hother with
      | finished hlast => exact absurd hfirst (hlast _)
      | next hfirst' hrest' => exact ih (hfirst.eq hfirst' ▸ hrest')

/-! ## The plain order places by hand -/

theorem nextKey?_eq_some_iff : store.nextKey? placed = some key ↔ store.ComesNext placed key := by
  have hascend : (store.keys.filter (· ∉ placed)).Pairwise fun a b => a.compare b = .lt :=
    (Std.TreeMap.ordered_keys : store.keys.Pairwise fun a b => a.compare b = .lt).filter _
  have hunplaced : ∀ other, other ∈ store.keys.filter (· ∉ placed) ↔
      store.Unplaced placed other := by
    intro other
    rw [List.mem_filter, decide_eq_true_eq]
    exact Iff.rfl
  have hfind : ∀ (targets : Key → List Key) (key : Key),
      ((store.keys.filter (· ∉ placed)).find? fun other => targets other ⊆ placed) = some key ↔
        Key.IsLeastWith
          (fun other => store.Unplaced placed other ∧ targets other ⊆ placed) key := by
    intro targets key
    rw [Key.find?_eq_some_iff hascend]
    exact Key.isLeastWith_congr fun other => by rw [hunplaced, decide_eq_true_eq]
  unfold nextKey?
  dsimp only
  split
  · next ready hready =>
      have hleast := (hfind store.targets ready).1 hready
      constructor
      · intro heq
        exact .ready (Option.some.inj heq ▸ hleast)
      · intro hnext
        exact congrArg some (ComesNext.eq (.ready hleast) hnext)
  · next hnone =>
      have hblocked : ∀ other, store.Unplaced placed other →
          ¬ store.targets other ⊆ placed := by
        intro other hother hready
        exact absurd (decide_eq_true hready)
          (List.find?_eq_none.1 hnone other ((hunplaced other).2 hother))
      rw [hfind]
      constructor
      · exact fun hleast => .forced hblocked hleast
      · rintro (hleast | ⟨-, hleast⟩)
        · exact absurd hleast.1.2 (hblocked key hleast.1.1)
        · exact hleast

/-- Steps after which no key comes next have led to the end. -/
theorem leadsTo_placeKeys {steps : Nat}
    (hlast : store.nextKey? (store.placeKeys steps placed) = none) :
    store.LeadsTo placed (store.placeKeys steps placed) := by
  have hfinished : ∀ {placed : List Key}, store.nextKey? placed = none →
      store.LeadsTo placed placed := by
    intro placed hnone
    refine .finished fun key hnext => ?_
    rw [nextKey?_eq_some_iff.2 hnext] at hnone
    cases hnone
  induction steps generalizing placed with
  | zero => exact hfinished hlast
  | succ steps ih =>
      unfold placeKeys at hlast ⊢
      cases hnext : store.nextKey? placed with
      | none => exact hfinished hnext
      | some key =>
          rw [hnext] at hlast
          exact .next (nextKey?_eq_some_iff.1 hnext) (ih hlast)

namespace WellFormed

/-- Both orders come to their end within as many steps as there are stored concepts. -/
theorem nextKey?_last (hstore : store.WellFormed) {steps : Nat} (hsteps : store.size ≤ steps) :
    store.nextKey? (store.placeKeys steps []) = none := by
  have hstart : store.startPlacement.Lists store [] := rfl
  have htracks : (store.placeSteps store.dependents steps store.startPlacement).Tracks store [] :=
    (placeSteps_invariant (P := fun _ => True) hstore (fun _ _ _ => trivial)
      (tracks_startPlacement hstore) trivial steps).1
  have hagree := keyOf?_nextPlaced? hstore htracks
    (lists_placeSteps hstore (tracks_startPlacement hstore) hstart steps)
  rw [hstore.placeSteps_last hsteps, hstore.nextPlaced?_last] at hagree
  exact Option.map_eq_none_iff.1 hagree.symm

theorem leadsTo_iff (hstore : store.WellFormed) :
    store.LeadsTo [] order ↔ order = store.plainPrecedence := by
  have hplain : store.LeadsTo [] store.plainPrecedence :=
    leadsTo_placeKeys (hstore.nextKey?_last le_rfl)
  exact ⟨fun h => h.eq hplain, fun heq => heq ▸ hplain⟩

/-- The plain order lists every stored key once. -/
theorem plainPrecedence_perm (hstore : store.WellFormed) :
    store.plainPrecedence.Perm store.keys := by
  have hperm : (store.precedence.map store.keyOf?).Perm (store.ids.map store.keyOf?) :=
    hstore.precedence_perm.map _
  rw [keyOf?_precedence hstore, hstore.keyOf?_ids] at hperm
  exact ((List.map_perm_map_iff (Option.some_injective _)).1 hperm).trans hstore.keys_perm.symm

end WellFormed

/-! ## The order of admission -/

/-- The keys in the order of precedence are those that placing by hand arrives at, and
nothing else is arrived at; enough steps of the plain order list them too. Stores over one
schema with the same set of concepts list the same keys, whatever the order of admission
and so the identifiers. -/
theorem Reachable.precedence_by_hand (h : store.Reachable) :
    (∃ order, store.precedence.map store.keyOf? = order.map some ∧ order.Perm store.keys ∧
      (∀ other, store.LeadsTo [] other ↔ other = order) ∧
      ∀ steps, store.size ≤ steps → store.placeKeys steps [] = order) ∧
    ∀ other : Store, other.Reachable → other.schema = store.schema →
      (∀ concept, concept ∈ other.concepts ↔ concept ∈ store.concepts) →
      other.precedence.map other.keyOf? = store.precedence.map store.keyOf? := by
  have hstore := h.wellFormed
  refine ⟨⟨store.plainPrecedence, keyOf?_precedence hstore, hstore.plainPrecedence_perm,
    fun other => hstore.leadsTo_iff, fun steps hsteps => ?_⟩, ?_⟩
  · exact hstore.leadsTo_iff.1 (leadsTo_placeKeys (hstore.nextKey?_last hsteps))
  · intro other hother hschema hconcepts
    have hsame := SameContents.of_concepts hother.wellFormed hstore hschema hconcepts
    exact hsame.keyOf?_precedence hother.wellFormed hstore

end Store

/-! ## A reading list in two orders -/

namespace ReadingList

/-- The second course builds on the first, which builds on the second, named twice, and on
itself; with the topic and the notes. -/
def circle : List (Concept × Origin) :=
  [(course 2 [1], .seed 0), (topic, .seed 1), (notes, .seed 2), (course 1 [2, 2, 1], .seed 3)]

/-- The store to which this is offered in this order. -/
def circleStore : Store :=
  ((Store.empty schema).insertAll circle).2

/-- The store to which it is offered with the first course at the front. -/
def turnedStore : Store :=
  ((Store.empty schema).insertAll (circle.rotate 3)).2

/-- After the topic both courses wait for each other. The first is placed while it still
waits, and the same courses come in the same order when their identifiers are others. -/
theorem circle_by_hand :
    circleStore.LeadsTo [] [topic.key, (course 1 []).key, (course 2 []).key, notes.key] ∧
    circleStore.precedence ≠ turnedStore.precedence ∧
    turnedStore.precedence.map turnedStore.keyOf? =
      circleStore.precedence.map circleStore.keyOf? := by
  have hcircle : circleStore.Reachable := (Store.Reachable.empty schema).insertAll _
  have hturned : turnedStore.Reachable := (Store.Reachable.empty schema).insertAll _
  have hconcepts : turnedStore.concepts.Perm circleStore.concepts := of_decide_eq_true (by cbv)
  obtain ⟨⟨order, -, -, hleads, hsteps⟩, hsame⟩ := hcircle.precedence_by_hand
  refine ⟨(hleads _).2 ?_, ?_, hsame turnedStore hturned rfl fun _ => hconcepts.mem_iff⟩
  · rw [← hsteps 4 (by decide)]
    cbv
  · exact of_decide_eq_true (by cbv)

end ReadingList

end ConceptExpansion
