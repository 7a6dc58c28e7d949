/-
# Histories of admissions

Concepts are offered to a store one after the other, and the store takes in some of
them and refuses the others. A store is reachable if it was empty once and has become
what it is by admissions. Refused offers leave no trace, so the reachable stores are
those at which some sequence of offers, successful or not, has arrived.

Whatever one admission keeps, any sequence of offers keeps.
-/

import ConceptExpansion.Proofs.Store.Growth

namespace ConceptExpansion.Store

variable {store next : Store} {concept : Concept} {origin : Origin} {admission : Admission}

/-! ## Sequences of offers -/

@[simp]
theorem insertAll_nil (store : Store) : store.insertAll [] = ([], store) := rfl

theorem insertAll_cons_of_ok (h : store.insert concept origin = .ok (admission, next))
    (rest : List (Concept × Origin)) :
    store.insertAll ((concept, origin) :: rest) =
      (.ok admission :: (next.insertAll rest).1, (next.insertAll rest).2) := by
  simp [insertAll, h]

theorem insertAll_cons_of_error {error : StoreError}
    (h : store.insert concept origin = .error error) (rest : List (Concept × Origin)) :
    store.insertAll ((concept, origin) :: rest) =
      (.error error :: (store.insertAll rest).1, (store.insertAll rest).2) := by
  simp [insertAll, h]

/-- A sequence of offers may be interrupted and taken up again. -/
theorem insertAll_append (store : Store) (first second : List (Concept × Origin)) :
    store.insertAll (first ++ second) =
      ((store.insertAll first).1 ++ ((store.insertAll first).2.insertAll second).1,
        ((store.insertAll first).2.insertAll second).2) := by
  induction first generalizing store with
  | nil => simp
  | cons attempt rest ih =>
      obtain ⟨concept, origin⟩ := attempt
      cases hinsert : store.insert concept origin with
      | error error => simp [insertAll_cons_of_error hinsert, ih store]
      | ok answer => simp [insertAll_cons_of_ok hinsert, ih answer.2]

/-- What every admission keeps, any sequence of offers keeps. -/
theorem insertAll_invariant {P : Store → Prop}
    (hstep : ∀ {store next : Store} {concept : Concept} {origin : Origin}
      {admission : Admission}, P store →
        store.insert concept origin = .ok (admission, next) → P next)
    (h : P store) (attempts : List (Concept × Origin)) : P (store.insertAll attempts).2 := by
  induction attempts generalizing store with
  | nil => exact h
  | cons attempt rest ih =>
      obtain ⟨concept, origin⟩ := attempt
      cases hinsert : store.insert concept origin with
      | error error =>
          rw [insertAll_cons_of_error hinsert]
          exact ih h
      | ok answer =>
          rw [insertAll_cons_of_ok hinsert]
          exact ih (hstep h hinsert)

/-- A sequence of offers, of which some may fail, keeps a store well-formed and loses
nothing that was stored. -/
theorem WellFormed.insertAll (hstore : store.WellFormed) (attempts : List (Concept × Origin)) :
    (store.insertAll attempts).2.WellFormed ∧ store.Grows (store.insertAll attempts).2 := by
  apply insertAll_invariant (P := fun later => later.WellFormed ∧ store.Grows later)
  · rintro later next concept origin admission ⟨hlater, hgrows⟩ hinsert
    exact ⟨hlater.insert hinsert, hgrows.trans (hlater.grows_insert hinsert)⟩
  · exact ⟨hstore, .refl store⟩

/-! ## Reachable stores -/

/-- The store was empty once and has become what it is by admissions. -/
inductive Reachable : Store → Prop
  | empty (schema : Schema) : Reachable (.empty schema)
  | insert {store next : Store} {concept : Concept} {origin : Origin} {admission : Admission}
      (h : Reachable store) (hinsert : store.insert concept origin = .ok (admission, next)) :
      Reachable next

namespace Reachable

theorem wellFormed (h : store.Reachable) : store.WellFormed := by
  induction h with
  | empty schema => exact wellFormed_empty schema
  | insert _ hinsert ih => exact ih.insert hinsert

theorem insertAll (h : store.Reachable) (attempts : List (Concept × Origin)) :
    (store.insertAll attempts).2.Reachable :=
  insertAll_invariant Reachable.insert h attempts

end Reachable

/-- The reachable stores are those at which offers to an empty store arrive, whichever
of the offers are refused. -/
theorem reachable_iff : store.Reachable ↔
    ∃ schema attempts, ((empty schema).insertAll attempts).2 = store := by
  constructor
  · intro h
    induction h with
    | empty schema => exact ⟨schema, [], rfl⟩
    | @insert store next concept origin admission _ hinsert ih =>
        obtain ⟨schema, attempts, rfl⟩ := ih
        refine ⟨schema, attempts ++ [(concept, origin)], ?_⟩
        simp [insertAll_append, insertAll_cons_of_ok hinsert]
  · rintro ⟨schema, attempts, rfl⟩
    exact (Reachable.empty schema).insertAll attempts

end ConceptExpansion.Store
