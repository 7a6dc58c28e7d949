/-
# The positions of seeds do not matter to a store

The origin of a stored seed tells where the seed stood in the caller's list. A
store answers alike whatever these positions are: to forget them changes no
answer but the origins themselves, and stores that differ in them only go on
doing so when the same concept is admitted to both.
-/

import ConceptExpansion.Model.Export
import ConceptExpansion.Proofs.Agreement
import ConceptExpansion.Proofs.Store.Origins
import ConceptExpansion.Store.Precedence

namespace ConceptExpansion

/-! ## Forgetting positions -/

/-- The origin with nothing said of the position of a seed. -/
def Origin.forgetPosition : Origin → Origin
  | seed _ => seed 0
  | rule name source => rule name source

/-- The entry with nothing said of the position of a seed. -/
def Entry.forgetPosition (entry : Entry) : Entry :=
  { entry with origin := entry.origin.forgetPosition }

/-- The entries are the same up to the position of a seed. -/
structure Entry.Alike (a b : Entry) : Prop where
  id : a.id = b.id
  key : a.key = b.key
  concept : a.concept = b.concept
  origin : a.origin.forgetPosition = b.origin.forgetPosition

theorem Entry.alike_iff {a b : Entry} : a.Alike b ↔ a.forgetPosition = b.forgetPosition := by
  constructor
  · rintro ⟨hid, hkey, hconcept, horigin⟩
    simp only [forgetPosition, hid, hkey, hconcept, horigin]
  · intro h
    exact ⟨congrArg (·.id) h, congrArg (·.key) h, congrArg (·.concept) h, congrArg (·.origin) h⟩

namespace Store

variable {a b : Store}

/-- The store with nothing said of the positions of seeds. -/
def forgetPositions (store : Store) : Store :=
  { store with entries := store.entries.map Entry.forgetPosition }

/-- The stores are the same up to the positions of seeds. -/
def Alike (a b : Store) : Prop := a.forgetPositions = b.forgetPositions

section Forget

variable (store : Store)

theorem get?_forgetPositions (id : ConceptId) :
    store.forgetPositions.get? id = (store.get? id).map Entry.forgetPosition :=
  get?_mapOrigins Origin.forgetPosition store id

theorem find?_forgetPositions (key : Key) :
    store.forgetPositions.find? key = (store.find? key).map Entry.forgetPosition :=
  find?_mapOrigins Origin.forgetPosition store key

@[simp]
theorem size_forgetPositions : store.forgetPositions.size = store.size :=
  size_mapOrigins Origin.forgetPosition store

theorem missingTarget?_forgetPositions (concept : Concept) :
    store.forgetPositions.missingTarget? concept = store.missingTarget? concept := rfl

theorem ofKind_forgetPositions (kind : String) :
    store.forgetPositions.ofKind kind = (store.ofKind kind).map Entry.forgetPosition := by
  unfold ofKind
  rw [show store.forgetPositions.keysOfKind kind = store.keysOfKind kind from rfl,
    List.map_filterMap]
  simp only [get?_forgetPositions]

theorem push_forgetPositions (entry : Entry) :
    (store.push entry).forgetPositions = store.forgetPositions.push entry.forgetPosition :=
  push_mapOrigins Origin.forgetPosition store entry

theorem setPayload_forgetPositions (id : ConceptId) (payload : Attributes) :
    (store.setPayload id payload).forgetPositions =
      store.forgetPositions.setPayload id payload :=
  setPayload_mapOrigins Origin.forgetPosition store id payload

theorem dependencies_forgetPositions (id : ConceptId) :
    store.forgetPositions.dependencies id = store.dependencies id := by
  unfold dependencies
  rw [get?_forgetPositions]
  cases store.get? id <;> rfl

theorem keyDependencies_forgetPositions (id : ConceptId) :
    store.forgetPositions.keyDependencies id = store.keyDependencies id := by
  unfold keyDependencies
  rw [get?_forgetPositions]
  cases store.get? id <;> rfl

theorem nextPlaced?_forgetPositions (placement : Placement) :
    store.forgetPositions.nextPlaced? placement = store.nextPlaced? placement := by
  unfold nextPlaced?
  simp only [keyDependencies_forgetPositions]

theorem placeSteps_forgetPositions (dependents : Array (List (Key × ConceptId))) (steps : Nat)
    (placement : Placement) :
    store.forgetPositions.placeSteps dependents steps placement =
      store.placeSteps dependents steps placement := by
  induction steps generalizing placement with
  | zero => rfl
  | succ steps ih => simp only [placeSteps, nextPlaced?_forgetPositions, ih]

theorem dependents_forgetPositions : store.forgetPositions.dependents = store.dependents := by
  unfold dependents
  simp only [dependencies_forgetPositions, size_forgetPositions]
  rw [show store.forgetPositions.entries = store.entries.map Entry.forgetPosition from rfl,
    Array.toList_map, List.foldl_map]
  rfl

theorem startPlacement_forgetPositions :
    store.forgetPositions.startPlacement = store.startPlacement := by
  unfold startPlacement
  simp only [dependencies_forgetPositions, size_forgetPositions]
  rw [show store.forgetPositions.entries = store.entries.map Entry.forgetPosition from rfl,
    Array.map_map]
  rfl

/-- The order of precedence depends on keys and references alone. -/
theorem precedence_forgetPositions : store.forgetPositions.precedence = store.precedence := by
  unfold precedence
  rw [placeSteps_forgetPositions, dependents_forgetPositions, size_forgetPositions,
    startPlacement_forgetPositions]

end Forget

/-! ## Stores that differ in positions only -/

namespace Alike

theorem refl (store : Store) : Alike store store := rfl

theorem schema (h : a.Alike b) : a.schema = b.schema := by
  have hforget : a.forgetPositions.schema = b.forgetPositions.schema := by rw [h]
  exact hforget

theorem size (h : a.Alike b) : a.size = b.size := by
  rw [← size_forgetPositions a, h, size_forgetPositions]

theorem missingTarget? (h : a.Alike b) (concept : Concept) :
    a.missingTarget? concept = b.missingTarget? concept := by
  rw [← missingTarget?_forgetPositions a, h, missingTarget?_forgetPositions]

theorem precedence (h : a.Alike b) : a.precedence = b.precedence := by
  rw [← precedence_forgetPositions a, h, precedence_forgetPositions]

/-- Entries are found in both stores or in neither. -/
theorem cases_of_map {x y : Option Entry}
    (h : x.map Entry.forgetPosition = y.map Entry.forgetPosition) :
    (x = none ∧ y = none) ∨ ∃ e e', x = some e ∧ y = some e' ∧ e.Alike e' := by
  cases x with
  | none =>
      cases y with
      | none => exact .inl ⟨rfl, rfl⟩
      | some e' => cases h
  | some e =>
      cases y with
      | none => cases h
      | some e' => exact .inr ⟨e, e', rfl, rfl, Entry.alike_iff.2 (Option.some.inj h)⟩

theorem get? (h : a.Alike b) (id : ConceptId) :
    (a.get? id = none ∧ b.get? id = none) ∨
      ∃ e e', a.get? id = some e ∧ b.get? id = some e' ∧ e.Alike e' := by
  apply cases_of_map
  rw [← get?_forgetPositions, h, get?_forgetPositions]

theorem find? (h : a.Alike b) (key : Key) :
    (a.find? key = none ∧ b.find? key = none) ∨
      ∃ e e', a.find? key = some e ∧ b.find? key = some e' ∧ e.Alike e' := by
  apply cases_of_map
  rw [← find?_forgetPositions, h, find?_forgetPositions]

theorem push (h : a.Alike b) {e e' : Entry} (he : e.Alike e') :
    (a.push e).Alike (b.push e') := by
  show forgetPositions _ = forgetPositions _
  rw [push_forgetPositions, push_forgetPositions, h, Entry.alike_iff.1 he]

theorem setPayload (h : a.Alike b) (id : ConceptId) (payload : Attributes) :
    (a.setPayload id payload).Alike (b.setPayload id payload) := by
  show forgetPositions _ = forgetPositions _
  rw [setPayload_forgetPositions, setPayload_forgetPositions, h]

/-- Admission of one concept, whatever its position, ends alike. -/
theorem insert (h : a.Alike b) (concept : Concept) {origin origin' : Origin}
    (horigin : origin.forgetPosition = origin'.forgetPosition) :
    Agree (fun e e' => (ExpansionError.ofStoreError e).Alike (.ofStoreError e'))
      (fun x y => x.1 = y.1 ∧ x.2.Alike y.2)
      (a.insert concept origin) (b.insert concept origin') := by
  unfold Store.insert
  rw [h.schema, h.missingTarget?]
  cases b.schema.validate concept with
  | error cause => exact .error (.refl _)
  | ok kind =>
      dsimp only
      cases b.missingTarget? concept with
      | some target => exact .error (.refl _)
      | none =>
          dsimp only
          obtain ⟨ha, hb⟩ | ⟨e, e', ha, hb, hid, hkey, hconcept, horigin'⟩ := h.find? concept.key
          · rw [ha, hb]
            show Agree _ _ (insertNew _ _ _ _) (insertNew _ _ _ _)
            unfold insertNew
            rw [h.size]
            cases ConceptId.ofIndex? b.size with
            | none => exact .error (.refl _)
            | some id => exact .ok ⟨rfl, h.push ⟨rfl, rfl, rfl, horigin⟩⟩
          · rw [ha, hb]
            show Agree _ _ (reinsert _ _ _ _ _) (reinsert _ _ _ _ _)
            unfold reinsert
            rw [hconcept, hid, hkey]
            cases kind.disagreement? e'.concept.payload concept.payload with
            | some name => exact .error ⟨rfl, rfl⟩
            | none =>
                dsimp only
                split
                · exact .ok ⟨rfl, h⟩
                · exact .ok ⟨rfl, h.setPayload _ _⟩

end Alike

end Store

end ConceptExpansion
