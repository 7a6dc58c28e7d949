/-
# Whose turn it is

The order of precedence places one concept after the other, and each of them has its
turn for one of two reasons. Either everything that the concept depends on has been
placed, or nothing that is left could be placed on these terms: each concept that is
left depends on another one that is left. Payload references are given up then, and
the least key has its turn among the concepts whose key references have been placed.

Which reason applies is a matter of the references between stored concepts and of
what stands earlier in the order. The counts and lists that are kept on the way do not
occur in it.
-/

import ConceptExpansion.Proofs.Store.Completeness

namespace ConceptExpansion

namespace Store

variable {store : Store} {placement : Placement} {a b id : ConceptId}

/-! ## References between stored concepts -/

/-- A key field or an attribute of the stored concept `a` refers to the stored concept
`b`, at any depth. -/
def RefersTo (store : Store) (a b : ConceptId) : Prop :=
  ∃ entry target, store.get? a = some entry ∧ entry.concept.Mentions target ∧
    store.idOf? target = some b

/-- A key field of the stored concept `a` refers to the stored concept `b`, at any
depth. -/
def KeyRefersTo (store : Store) (a b : ConceptId) : Prop :=
  ∃ entry target, store.get? a = some entry ∧ entry.key.Mentions target ∧
    store.idOf? target = some b

/-- The stored concept `b` is one of the dependencies of `a`. -/
def DependsOn (store : Store) (a b : ConceptId) : Prop :=
  b ∈ store.dependencies a

instance (store : Store) (a b : ConceptId) : Decidable (store.DependsOn a b) :=
  inferInstanceAs (Decidable (b ∈ store.dependencies a))

/-- The dependencies of a concept are the others that it refers to. -/
theorem dependsOn_iff : store.DependsOn a b ↔ a ≠ b ∧ store.RefersTo a b := by
  unfold DependsOn RefersTo
  rw [mem_dependencies]
  simp only [Concept.mem_refs_iff]
  constructor
  · rintro ⟨hne, entry, hget, target, hmentions, hid⟩
    exact ⟨hne.symm, entry, target, hget, hmentions, hid⟩
  · rintro ⟨hne, entry, target, hget, hmentions, hid⟩
    exact ⟨hne.symm, entry, hget, target, hmentions, hid⟩

theorem RefersTo.dependsOn (h : store.RefersTo a b) (hne : a ≠ b) : store.DependsOn a b :=
  dependsOn_iff.2 ⟨hne, h⟩

theorem mem_keyDependencies_iff (hstore : store.WellFormed) :
    b ∈ store.keyDependencies a ↔ store.KeyRefersTo a b := by
  unfold keyDependencies KeyRefersTo
  cases hget : store.get? a with
  | none => simp
  | some entry =>
      rw [List.mem_filterMap, Concept.keyRefs_eq, hstore.concept_key hget]
      simp [Key.mem_refs_iff]

/-- A key reference leads to a smaller key, hence to another concept. -/
theorem KeyRefersTo.ne (hstore : store.WellFormed) (h : store.KeyRefersTo a b) : a ≠ b := by
  obtain ⟨entry, target, hget, hmentions, hid⟩ := h
  obtain ⟨other, hother, rfl⟩ := hstore.idOf?_eq_some_iff.1 hid
  rintro rfl
  obtain rfl : other = entry := Option.some.inj (hother.symm.trans hget)
  exact lt_irrefl _ hmentions.sizeOf_lt

theorem KeyRefersTo.refersTo (hstore : store.WellFormed) (h : store.KeyRefersTo a b) :
    store.RefersTo a b := by
  obtain ⟨entry, target, hget, ⟨value, hvalue, hmentions⟩, hid⟩ := h
  rw [← hstore.concept_key hget] at hvalue
  exact ⟨entry, target, hget, .inl ⟨value, hvalue, hmentions⟩, hid⟩

theorem KeyRefersTo.dependsOn (hstore : store.WellFormed) (h : store.KeyRefersTo a b) :
    store.DependsOn a b :=
  (h.refersTo hstore).dependsOn (h.ne hstore)

theorem RefersTo.mem_ids (hstore : store.WellFormed) (h : store.RefersTo a b) :
    a ∈ store.ids ∧ b ∈ store.ids := by
  obtain ⟨entry, target, hget, -, hid⟩ := h
  obtain ⟨other, hother, -⟩ := hstore.idOf?_eq_some_iff.1 hid
  exact ⟨hstore.mem_ids.2 ⟨entry, hget⟩, hstore.mem_ids.2 ⟨other, hother⟩⟩

theorem DependsOn.mem_ids (hstore : store.WellFormed) (h : store.DependsOn a b) :
    a ∈ store.ids ∧ b ∈ store.ids :=
  (dependsOn_iff.1 h).2.mem_ids hstore

/-! ## Turns -/

/-- Each concept that has not been placed depends on another one that has not. -/
def Blocked (store : Store) (placed : List ConceptId) : Prop :=
  ∀ id ∈ store.ids, id ∉ placed → ∃ other, store.DependsOn id other ∧ other ∉ placed

/-- Every concept that the key fields of the concept refer to has been placed. -/
def KeysPlaced (store : Store) (placed : List ConceptId) (id : ConceptId) : Prop :=
  ∀ other, store.KeyRefersTo id other → other ∈ placed

/-- No concept that could be placed for its key references has a smaller key. -/
def LeastPlaceable (store : Store) (placed : List ConceptId) (id : ConceptId) : Prop :=
  ∀ entry other : Entry, store.get? id = some entry → other ∈ store.entries →
    other.id ∉ placed → store.KeysPlaced placed other.id → entry.key.atMost other.key = true

/-- Why a concept is placed after these. -/
inductive Turn (store : Store) (placed : List ConceptId) (id : ConceptId) : Prop
  /-- All its dependencies have been placed. -/
  | ready (hdependencies : ∀ other, store.DependsOn id other → other ∈ placed)
  /-- Nothing is ready, and it has the least key of those whose key references have
  been placed. -/
  | forced (hblocked : store.Blocked placed) (hkeys : store.KeysPlaced placed id)
      (hleast : store.LeastPlaceable placed id)

/-- Key references are never given up. -/
theorem Turn.keysPlaced (hstore : store.WellFormed) {placed : List ConceptId}
    (h : store.Turn placed id) : store.KeysPlaced placed id := by
  cases h with
  | ready hdependencies => exact fun other hother => hdependencies other (hother.dependsOn hstore)
  | forced _ hkeys => exact hkeys

/-- A concept is ready as soon as all its dependencies have been placed. -/
theorem mem_ready_iff (hstore : store.WellFormed) (h : placement.Tracks store []) {key : Key} :
    (key, id) ∈ placement.ready ↔ store.idOf? key = some id ∧ id ∉ placement.order.toList ∧
      ∀ other, store.DependsOn id other → other ∈ placement.order.toList := by
  rw [h.mem_ready]
  refine and_congr_right fun hkey => and_congr ?_ ?_
  · rw [← h.isPlaced, Bool.not_eq_true]
  · obtain ⟨entry, hget, -⟩ := hstore.idOf?_eq_some_iff.1 hkey
    rw [h.waiting id (hstore.mem_ids.2 ⟨entry, hget⟩), List.map_nil, if_neg List.not_mem_nil,
      Nat.add_zero, Option.some.injEq, Placement.pending, List.countP_eq_zero]
    simp only [Bool.not_eq_true', Bool.not_eq_false, h.isPlaced, DependsOn]

theorem mem_unplaced_iff (h : placement.Tracks store []) {key : Key} :
    (key, id) ∈ placement.unplaced ↔
      store.idOf? key = some id ∧ id ∉ placement.order.toList := by
  rw [h.unplaced, List.mem_filter, mem_byKey, ← h.isPlaced, Bool.not_eq_true', Bool.not_eq_true]

/-- Where nothing is ready everything that is left waits for something that is left. -/
theorem blocked_of_ready_eq_nil (hstore : store.WellFormed) (h : placement.Tracks store [])
    (hready : placement.ready = []) : store.Blocked placement.order.toList := by
  intro id hid hnot
  obtain ⟨entry, hget⟩ := hstore.mem_ids.1 hid
  have hkey := hstore.idOf?_eq_some_iff.2 ⟨entry, hget, rfl⟩
  by_contra hnone
  have hmem : (entry.key, id) ∈ placement.ready := by
    refine (mem_ready_iff hstore h).2 ⟨hkey, hnot, fun other hother => ?_⟩
    by_contra hwaits
    exact hnone ⟨other, hother, hwaits⟩
  rw [hready] at hmem
  cases hmem

theorem keysPlaced_iff (hstore : store.WellFormed) (h : placement.Tracks store []) :
    (store.keyDependencies id).all placement.isPlaced = true ↔
      store.KeysPlaced placement.order.toList id := by
  rw [List.all_eq_true]
  simp only [h.isPlaced, mem_keyDependencies_iff hstore, KeysPlaced]

/-- The concept that is placed next has its turn. -/
theorem turn_of_nextPlaced? (hstore : store.WellFormed) (h : placement.Tracks store [])
    (hnext : store.nextPlaced? placement = some id) : store.Turn placement.order.toList id := by
  unfold nextPlaced? at hnext
  split at hnext
  · next first rest hready =>
      cases hnext
      have hmem : (first.1, first.2) ∈ placement.ready := hready ▸ List.mem_cons_self
      exact .ready ((mem_ready_iff hstore h).1 hmem).2.2
  · next hready =>
      obtain ⟨⟨key, id'⟩, hfind, rfl⟩ := Option.map_eq_some_iff.1 hnext
      obtain ⟨hall, before, after, hunplaced, hbefore⟩ := List.find?_eq_some_iff_append.1 hfind
      have hascend : KeysAscend placement.unplaced := by
        rw [h.unplaced]
        exact (keysAscend_byKey store).filter _
      refine .forced (blocked_of_ready_eq_nil hstore h hready) ((keysPlaced_iff hstore h).1 hall) ?_
      intro entry other hget hother hnot hkeys
      have hmem : (key, id') ∈ placement.unplaced := List.mem_of_find?_eq_some hfind
      obtain ⟨found, hfound, hkey⟩ := hstore.idOf?_eq_some_iff.1 ((mem_unplaced_iff h).1 hmem).1
      obtain rfl : found = entry := Option.some.inj (hfound.symm.trans hget)
      have hother' : (other.key, other.id) ∈ placement.unplaced :=
        (mem_unplaced_iff h).2
          ⟨hstore.idOf?_eq_some_iff.2 ⟨other, hstore.get?_of_mem hother, rfl⟩, hnot⟩
      -- The search has passed over no concept whose key references are placed.
      rw [hunplaced] at hother' hascend
      rcases List.mem_append.1 hother' with hearlier | hlater
      · have hwaits := hbefore _ hearlier
        rw [(keysPlaced_iff hstore h).2 hkeys] at hwaits
        cases hwaits
      · rw [hkey]
        rcases List.mem_cons.1 hlater with heq | hlater
        · cases heq
          exact Key.atMost_refl _
        · exact Key.atMost_of_lt
            ((List.pairwise_cons.1 (List.pairwise_append.1 hascend).2.1).1 _ hlater)

/-! ## Where everything waits there is a cycle -/

/-- If each of finitely many elements has a successor among them, each leads to a
cycle. -/
theorem exists_cycle_of_successor {α : Type} {r : α → α → Prop} {s : Set α} (hfinite : s.Finite)
    (hsuccessor : ∀ a ∈ s, ∃ b ∈ s, r a b) {a : α} (ha : a ∈ s) :
    ∃ c, Relation.ReflTransGen (fun a b => r a b ∧ b ∈ s) a c ∧
      Relation.TransGen (fun a b => r a b ∧ b ∈ s) c c := by
  -- Without a cycle there would be a last one among the elements that are reached.
  by_contra hnone
  let reached := {b : α // b ∈ s ∧ Relation.ReflTransGen (fun a b => r a b ∧ b ∈ s) a b}
  let later : reached → reached → Prop :=
    fun b c => Relation.TransGen (fun a b => r a b ∧ b ∈ s) c.1 b.1
  have hreached : Finite reached := (hfinite.subset fun _ hb => hb.1).to_subtype
  have htrans : IsTrans reached later := ⟨fun _ _ _ hab hbc => hbc.trans hab⟩
  have hirrefl : Std.Irrefl later := ⟨fun b hcycle => hnone ⟨b.1, b.2.2, hcycle⟩⟩
  obtain ⟨last, -, hlast⟩ := (Finite.wellFounded_of_trans_of_irrefl later).has_min Set.univ
    ⟨⟨a, ha, .refl⟩, trivial⟩
  obtain ⟨b, hb, hstep⟩ := hsuccessor last.1 last.2.1
  exact hlast ⟨b, hb, last.2.2.tail ⟨hstep, hb⟩⟩ trivial (.single ⟨hstep, hb⟩)

/-- The stored concept `a` depends on `b`, which has not been placed. -/
def WaitsFor (store : Store) (placed : List ConceptId) (a b : ConceptId) : Prop :=
  store.DependsOn a b ∧ b ∉ placed

/-- If nothing that is left can be placed, everything that is left leads to a cycle of
what is left. -/
theorem Blocked.exists_cycle (hstore : store.WellFormed) {placed : List ConceptId}
    (h : store.Blocked placed) (hid : id ∈ store.ids) (hnot : id ∉ placed) :
    ∃ c, Relation.ReflTransGen (store.WaitsFor placed) id c ∧
      Relation.TransGen (store.WaitsFor placed) c c := by
  have hfinite : {a | a ∈ store.ids ∧ a ∉ placed}.Finite :=
    (List.finite_toSet store.ids).subset fun _ ha => ha.1
  have hsuccessor : ∀ a ∈ {a | a ∈ store.ids ∧ a ∉ placed},
      ∃ b ∈ {a | a ∈ store.ids ∧ a ∉ placed}, store.DependsOn a b := by
    rintro a ⟨ha, hleft⟩
    obtain ⟨b, hdepends, hwaits⟩ := h a ha hleft
    exact ⟨b, ⟨(hdepends.mem_ids hstore).2, hwaits⟩, hdepends⟩
  obtain ⟨c, hleads, hcycle⟩ := exists_cycle_of_successor hfinite hsuccessor ⟨hid, hnot⟩
  have hwaits : ∀ a b, store.DependsOn a b ∧ b ∈ {a | a ∈ store.ids ∧ a ∉ placed} →
      store.WaitsFor placed a b := fun _ _ hstep => ⟨hstep.1, hstep.2.2⟩
  exact ⟨c, Relation.ReflTransGen.mono hwaits _ _ hleads, Relation.TransGen.mono hwaits _ _ hcycle⟩

/-! ## Turns along the order -/

/-- What holds before anything is placed, and goes on to hold whenever the concept that
is to be placed next is placed, holds however many concepts are placed. -/
theorem placeSteps_invariant {P : Placement → Prop} (hstore : store.WellFormed)
    (hstep : ∀ {placement : Placement} {id : ConceptId}, placement.Tracks store [] →
      store.nextPlaced? placement = some id → P placement →
        P (placement.place id (store.dependents.getD id.index [])))
    (h : placement.Tracks store []) (hplacement : P placement) (steps : Nat) :
    (store.placeSteps store.dependents steps placement).Tracks store [] ∧
      P (store.placeSteps store.dependents steps placement) := by
  induction steps generalizing placement with
  | zero => exact ⟨h, hplacement⟩
  | succ steps ih =>
      unfold placeSteps
      cases hnext : store.nextPlaced? placement with
      | none => exact ⟨h, hplacement⟩
      | some id =>
          obtain ⟨hid, hnew⟩ := unplaced_of_nextPlaced? hstore h hnext
          exact ih (h.place hstore hid hnew) (hstep h hnext hplacement)

/-- Each of the listed concepts has its turn after those before it. -/
def InTurn (store : Store) (order : List ConceptId) : Prop :=
  ∀ before id after, order = before ++ id :: after → store.Turn before id

theorem InTurn.concat {order : List ConceptId} (h : store.InTurn order)
    (hturn : store.Turn order id) : store.InTurn (order ++ [id]) := by
  intro before other after hsplit
  rcases List.eq_nil_or_concat after with rfl | ⟨middle, last, rfl⟩
  · obtain ⟨rfl, hlast⟩ := List.append_inj' hsplit rfl
    cases hlast
    exact hturn
  · have hsplit' : order ++ [id] = (before ++ other :: middle) ++ [last] := by
      rw [hsplit, List.concat_eq_append, List.append_assoc, List.cons_append]
    exact h before other middle (List.append_inj' hsplit' rfl).1

/-- In the order of precedence each concept has its turn. -/
theorem WellFormed.inTurn_precedence (hstore : store.WellFormed) :
    store.InTurn store.precedence := by
  refine (placeSteps_invariant (P := fun placement => store.InTurn placement.order.toList) hstore
    ?_ (tracks_startPlacement hstore) ?_ store.size).2
  · intro placement id h hnext hturns
    rw [Placement.order_place, Array.toList_push]
    exact hturns.concat (turn_of_nextPlaced? hstore h hnext)
  · intro before id after hsplit
    exact absurd hsplit.symm (List.append_ne_nil_of_right_ne_nil _ (List.cons_ne_nil _ _))

end Store

end ConceptExpansion
