/-
# Dependencies come first

The order of precedence lists every stored concept exactly once, whatever the store
holds: references that lead nowhere, concepts of sink kinds, payloads that refer to each
other in a circle. Key references are respected without exception, because no turn gives
them up; it does not matter whether the target is older than the concept that refers to
it or, as a concept of a sink kind may be, younger. Payload references are respected as
well as long as the dependencies form no cycle, since without a cycle there is always a
concept that waits for nothing.
-/

import ConceptExpansion.Proofs.Store.History
import ConceptExpansion.Proofs.Store.Turns

namespace ConceptExpansion

namespace Store

variable {store : Store} {placement : Placement} {a b id : ConceptId}

/-! ## Placing comes to an end -/

theorem placeSteps_of_none (hnext : store.nextPlaced? placement = none) (steps : Nat) :
    store.placeSteps store.dependents steps placement = placement := by
  cases steps with
  | zero => rfl
  | succ steps => rw [placeSteps, hnext]

theorem placeSteps_add (first more : Nat) (placement : Placement) :
    store.placeSteps store.dependents (first + more) placement =
      store.placeSteps store.dependents more
        (store.placeSteps store.dependents first placement) := by
  induction first generalizing placement with
  | zero => rw [Nat.zero_add, placeSteps]
  | succ first ih =>
      rw [Nat.succ_add, placeSteps, placeSteps]
      cases hnext : store.nextPlaced? placement with
      | none => exact (placeSteps_of_none hnext more).symm
      | some id => exact ih _

/-- Once as many steps have been made as there are stored concepts, nothing is left to
place. -/
theorem WellFormed.nextPlaced?_last (hstore : store.WellFormed) :
    store.nextPlaced? (store.placeSteps store.dependents store.size store.startPlacement) =
      none := by
  have htracks : (store.placeSteps store.dependents store.size store.startPlacement).Tracks
      store [] :=
    (placeSteps_invariant (P := fun _ => True) hstore (fun _ _ _ => trivial)
      (tracks_startPlacement hstore) trivial store.size).1
  rw [Option.eq_none_iff_forall_ne_some]
  intro id hnext
  obtain ⟨hid, hnew⟩ := unplaced_of_nextPlaced? hstore htracks hnext
  have hplaced : id ∈ store.precedence := hstore.precedence_perm.mem_iff.2 hid
  rw [(htracks.isPlaced id).2 hplaced] at hnew
  cases hnew

theorem WellFormed.placeSteps_last (hstore : store.WellFormed) {steps : Nat}
    (hsteps : store.size ≤ steps) :
    store.placeSteps store.dependents steps store.startPlacement =
      store.placeSteps store.dependents store.size store.startPlacement := by
  obtain ⟨more, rfl⟩ := Nat.exists_eq_add_of_le hsteps
  rw [placeSteps_add, placeSteps_of_none hstore.nextPlaced?_last]

/-! ## What comes before what -/

/-- The concept `first` comes before the concept `second` in the order of precedence. -/
def Precedes (store : Store) (first second : ConceptId) : Prop :=
  ∃ before after, store.precedence = before ++ second :: after ∧ first ∈ before

/-- Every stored concept has a turn in the order of precedence. -/
theorem WellFormed.exists_turn (hstore : store.WellFormed) (hid : id ∈ store.ids) :
    ∃ before after, store.precedence = before ++ id :: after ∧ store.Turn before id := by
  obtain ⟨before, after, hsplit⟩ := List.append_of_mem (hstore.precedence_perm.mem_iff.2 hid)
  exact ⟨before, after, hsplit, hstore.inTurn_precedence before id after hsplit⟩

theorem WellFormed.nodup_precedence (hstore : store.WellFormed) : store.precedence.Nodup :=
  hstore.precedence_perm.nodup_iff.2 hstore.nodup_ids

/-- A concept has not been placed when it has its turn. -/
theorem WellFormed.not_mem_before (hstore : store.WellFormed) {before after : List ConceptId}
    (hsplit : store.precedence = before ++ id :: after) : id ∉ before := by
  have hnodup := hstore.nodup_precedence
  rw [hsplit, List.nodup_append'] at hnodup
  exact fun hmem => hnodup.2.2 hmem List.mem_cons_self

theorem WellFormed.precedes_of_keyRefersTo (hstore : store.WellFormed)
    (h : store.KeyRefersTo a b) : store.Precedes b a := by
  obtain ⟨before, after, hsplit, hturn⟩ :=
    hstore.exists_turn ((h.refersTo hstore).mem_ids hstore).1
  exact ⟨before, after, hsplit, hturn.keysPlaced hstore b h⟩

/-- The dependencies form no cycle. -/
def Acyclic (store : Store) : Prop :=
  ∀ id, ¬ Relation.TransGen store.DependsOn id id

/-- Without cycles each concept waits until all its dependencies have been placed. -/
theorem WellFormed.precedes_of_acyclic (hstore : store.WellFormed) (hacyclic : store.Acyclic)
    (h : store.DependsOn a b) : store.Precedes b a := by
  have ha := (h.mem_ids hstore).1
  obtain ⟨before, after, hsplit, hturn⟩ := hstore.exists_turn ha
  cases hturn with
  | ready hdependencies => exact ⟨before, after, hsplit, hdependencies b h⟩
  | forced hblocked =>
      obtain ⟨c, -, hcycle⟩ := hblocked.exists_cycle hstore ha (hstore.not_mem_before hsplit)
      exact absurd (Relation.TransGen.mono (fun _ _ hstep => hstep.1) _ _ hcycle) (hacyclic c)

/-- The dependencies form no cycle if each leads down a ranking. -/
theorem acyclic_of_rank (hstore : store.WellFormed) (rank : ConceptId → Nat)
    (h : (store.entries.all fun entry =>
      (store.dependencies entry.id).all fun other => rank other < rank entry.id) = true) :
    store.Acyclic := by
  have hdown : ∀ a b, store.DependsOn a b → rank b < rank a := by
    intro a b hdepends
    obtain ⟨entry, hget⟩ := hstore.mem_ids.1 (hdepends.mem_ids hstore).1
    have hall := Array.all_eq_true'.1 h entry (Array.mem_of_getElem? hget)
    rw [hstore.id_of_get? hget] at hall
    exact of_decide_eq_true (List.all_eq_true.1 hall b hdepends)
  have hlt : ∀ a b, Relation.TransGen store.DependsOn a b → rank b < rank a := by
    intro a b hpath
    induction hpath with
    | single hstep => exact hdown _ _ hstep
    | tail _ hstep ih => exact (hdown _ _ hstep).trans ih
  exact fun id hcycle => lt_irrefl _ (hlt id id hcycle)

/-- However many steps are made beyond the number of stored concepts, placing arrives at
the same order. It lists every stored concept exactly once, and each concept comes after
all those that its key fields refer to, at any depth. If the dependencies form no cycle,
each also comes after all others that its payload refers to. -/
theorem Reachable.dependencies_first (h : store.Reachable) :
    (∀ steps, store.size ≤ steps →
      (store.placeSteps store.dependents steps store.startPlacement).order.toList =
        store.precedence) ∧
    store.precedence.Perm store.ids ∧ store.precedence.Nodup ∧
    (∀ a b, store.KeyRefersTo a b → store.Precedes b a) ∧
    (store.Acyclic → ∀ a b, a ≠ b → store.RefersTo a b → store.Precedes b a) := by
  have hstore := h.wellFormed
  refine ⟨fun steps hsteps => ?_, hstore.precedence_perm, hstore.nodup_precedence, ?_, ?_⟩
  · rw [hstore.placeSteps_last hsteps]
    rfl
  · exact fun a b => hstore.precedes_of_keyRefersTo
  · exact fun hacyclic a b hne href => hstore.precedes_of_acyclic hacyclic (href.dependsOn hne)

end Store

/-! ## A reading list -/

namespace ReadingList

/-- Courses, notes on them, and topics, which need not be stored. -/
def schema : Schema :=
  .ofKinds [{ name := "C", keyFields := ["n"] }, { name := "N", keyFields := ["on"] },
    { name := "T", keyFields := ["name"], sink := true }]

/-- A course, by number, with the numbers of those that it builds on. -/
def course (n : Int64) (requires : List Int64) : Concept where
  kind := "C"
  fields := [.int n]
  payload := .ofList [("requires", .list (requires.map fun m => .ref "C" [.int m]))]

/-- The topic. -/
def topic : Concept :=
  { kind := "T", fields := [.string "logic"] }

/-- Notes on the second course and the topic. -/
def notes : Concept :=
  { kind := "N", fields := [.list [(course 2 []).reference, .list [topic.reference]]] }

/-- The second course, which builds on the first and on a ninth that is not given, then
the notes, the topic and the first course. -/
def shelf : Store :=
  ((Store.empty schema).insertAll
    [(course 2 [1, 9], .seed 0), (notes, .seed 1), (topic, .seed 2), (course 1 [], .seed 3)]).2

theorem shelf_reachable : shelf.Reachable :=
  (Store.Reachable.empty schema).insertAll _

/-- The notes come after the topic, though it is younger, and the second course comes
after the first, which is younger too. -/
theorem shelf_in_order : shelf.Acyclic ∧ shelf.Precedes ⟨2, by decide⟩ ⟨1, by decide⟩ ∧
    shelf.Precedes ⟨3, by decide⟩ ⟨0, by decide⟩ := by
  have hstore := shelf_reachable.wellFormed
  have hacyclic : shelf.Acyclic :=
    Store.acyclic_of_rank hstore (fun id => shelf.precedence.idxOf id) (by cbv)
  have hkey : shelf.KeyRefersTo ⟨1, by decide⟩ ⟨2, by decide⟩ :=
    (Store.mem_keyDependencies_iff hstore).1 (of_decide_eq_true (by cbv))
  have hpayload : shelf.DependsOn ⟨0, by decide⟩ ⟨3, by decide⟩ := of_decide_eq_true (by cbv)
  obtain ⟨hne, hrefers⟩ := Store.dependsOn_iff.1 hpayload
  obtain ⟨-, -, -, hkeys, hall⟩ := shelf_reachable.dependencies_first
  exact ⟨hacyclic, hkeys _ _ hkey, hall hacyclic _ _ hne hrefers⟩

end ReadingList

end ConceptExpansion
