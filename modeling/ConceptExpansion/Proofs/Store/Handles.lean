/-
# Handles to a shared store

A history of steps through handles to one store is summed up by a ledger: which handles are
alive, and which admissions were made, by whichever handle, one after the other. The ledger
says all that the handles answer. What is read through any of them is the store that the
admissions make of the first one. The store can be taken back through the only handle alive;
an attempt while there are others answers how many are alive, the one that asks included,
and costs only that one. The store is taken back at most once, since no handle is alive
afterwards.
-/

import ConceptExpansion.Store.Sharing
import ConceptExpansion.Proofs.NameMap
import ConceptExpansion.Proofs.Store.History

namespace ConceptExpansion

/-- What a history of steps through handles comes to. -/
structure Ledger where
  /-- The handles alive. -/
  live : Finset String
  /-- The admissions made, by whichever handle, in order. -/
  admissions : List (Concept × Origin)

namespace Ledger

variable {store : Store} {shared : SharedStore} {ledger : Ledger} {handle : String}
  {step : HandleStep}

/-- Where a history begins: with one handle. -/
def opening (handle : String) : Ledger where
  live := {handle}
  admissions := []

/-- Enters a step. What is tried through a handle that is not alive leaves no trace. -/
def note (ledger : Ledger) (handle : String) (step : HandleStep) : Ledger :=
  if handle ∈ ledger.live then
    match step with
    | .clone other => { ledger with live := insert other ledger.live }
    | .drop | .takeBack => { ledger with live := ledger.live.erase handle }
    | .insert concept origin =>
      { ledger with admissions := ledger.admissions ++ [(concept, origin)] }
    | .size | .read => ledger
  else ledger

/-- The ledger of a history. -/
def after (first : String) (history : List (String × HandleStep)) : Ledger :=
  history.foldl (fun ledger turn => ledger.note turn.1 turn.2) (opening first)

/-- The store that the admissions make of the one at the beginning. -/
def contents (ledger : Ledger) (store : Store) : Store :=
  (store.insertAll ledger.admissions).2

/-- The shared store is as the ledger says, and so is the number of handles that its
operations have counted. -/
structure Describes (ledger : Ledger) (store : Store) (shared : SharedStore) : Prop where
  store : shared.store = ledger.contents store
  count : shared.count = ledger.live.card
  live : ∀ handle, shared.isLive handle = true ↔ handle ∈ ledger.live

theorem note_of_live (h : handle ∈ ledger.live) :
    ledger.note handle step =
      match step with
      | .clone other => { ledger with live := insert other ledger.live }
      | .drop | .takeBack => { ledger with live := ledger.live.erase handle }
      | .insert concept origin =>
        { ledger with admissions := ledger.admissions ++ [(concept, origin)] }
      | .size | .read => ledger :=
  if_pos h

theorem note_of_dead (h : handle ∉ ledger.live) : ledger.note handle step = ledger :=
  if_neg h

theorem describes_opening (store : Store) (handle : String) :
    (opening handle).Describes store (SharedStore.ofStore store handle) where
  store := rfl
  count := rfl
  live other := by
    show ((NameMap.insert ∅ handle ()).get? other).isSome = true ↔ other ∈ ({handle} : Finset _)
    rw [NameMap.get?_insert, Finset.mem_singleton]
    split <;> simp [*]

/-! ## One step -/

/-- Giving up a live handle takes one off the count. -/
theorem Describes.drop (h : ledger.Describes store shared) (hlive : handle ∈ ledger.live) :
    Describes { ledger with live := ledger.live.erase handle } store (shared.drop handle) := by
  have hdrop : shared.drop handle =
      { shared with handles := shared.handles.erase handle, count := shared.count - 1 } :=
    if_pos ((h.live handle).2 hlive)
  rw [hdrop]
  refine ⟨h.store, ?_, fun other => ?_⟩
  · show shared.count - 1 = (ledger.live.erase handle).card
    rw [h.count, Finset.card_erase_of_mem hlive]
  · show ((shared.handles.erase handle).get? other).isSome = true ↔ _
    rw [NameMap.get?_erase, Finset.mem_erase, ← h.live other]
    split
    · next heq => simp [heq]
    · next hne => simp [hne, SharedStore.isLive, NameMap.contains]

/-- A new handle adds one to the count, unless it takes the place of another. -/
theorem Describes.clone (h : ledger.Describes store shared) (other : String) :
    Describes { ledger with live := insert other ledger.live } store (shared.clone other) := by
  by_cases hother : other ∈ ledger.live
  · have hclone : shared.clone other = shared := by
      rw [SharedStore.clone, if_pos ((h.live other).2 hother)]
      rfl
    rw [hclone]
    exact ⟨h.store, h.count.trans (by rw [Finset.insert_eq_of_mem hother]),
      fun handle => by rw [Finset.insert_eq_of_mem hother, h.live]⟩
  · have hclone : shared.clone other =
        { shared with handles := shared.handles.insert other (), count := shared.count + 1 } :=
      if_neg (mt (h.live other).1 hother)
    rw [hclone]
    refine ⟨h.store, ?_, fun handle => ?_⟩
    · show shared.count + 1 = (insert other ledger.live).card
      rw [h.count, Finset.card_insert_of_notMem hother]
    · show ((shared.handles.insert other ()).get? handle).isSome = true ↔ _
      rw [NameMap.get?_insert, Finset.mem_insert, ← h.live handle]
      split
      · next heq => simp [heq]
      · next hne => simp [hne, SharedStore.isLive, NameMap.contains]

/-- An admission is answered as the store of the ledger answers it. -/
theorem Describes.insert (h : ledger.Describes store shared) (concept : Concept)
    (origin : Origin) :
    (shared.insert concept origin).1 =
        ((ledger.contents store).insert concept origin).map Prod.fst ∧
      Describes { ledger with admissions := ledger.admissions ++ [(concept, origin)] } store
        (shared.insert concept origin).2 := by
  rw [SharedStore.insert, h.store]
  cases hinsert : (ledger.contents store).insert concept origin with
  | ok answer =>
      refine ⟨rfl, ?_, h.count, h.live⟩
      show answer.2 = (store.insertAll (ledger.admissions ++ [(concept, origin)])).2
      rw [Store.insertAll_append, ← contents, Store.insertAll_cons_of_ok hinsert]
      rfl
  | error error =>
      refine ⟨rfl, h.store.trans ?_, h.count, h.live⟩
      show _ = (store.insertAll (ledger.admissions ++ [(concept, origin)])).2
      rw [Store.insertAll_append, ← contents, Store.insertAll_cons_of_error hinsert]
      rfl

/-- The attempt to take the store back costs the handle, and succeeds through the only one. -/
theorem Describes.takeBack (h : ledger.Describes store shared) (hlive : handle ∈ ledger.live) :
    (shared.takeBack handle).1 =
        (if ledger.live = {handle} then .ok (ledger.contents store)
          else .error (.stillShared ledger.live.card)) ∧
      Describes { ledger with live := ledger.live.erase handle } store
        (shared.takeBack handle).2 := by
  have honly : shared.count = 1 ↔ ledger.live = {handle} := by
    rw [h.count, Finset.card_eq_one]
    constructor
    · rintro ⟨only, honly⟩
      rw [honly, Finset.mem_singleton] at hlive
      rw [honly, hlive]
    · exact fun honly => ⟨handle, honly⟩
  unfold SharedStore.takeBack
  split
  · next hone => exact ⟨by rw [if_pos (honly.1 hone), h.store], h.drop hlive⟩
  · next hmore => exact ⟨by rw [if_neg (mt honly.2 hmore), h.count], h.drop hlive⟩

theorem Describes.perform_of_live (h : ledger.Describes store shared)
    (hlive : handle ∈ ledger.live) :
    shared.perform handle step =
      match step with
      | .clone other => (.cloned, shared.clone other)
      | .drop => (.dropped, shared.drop handle)
      | .insert concept origin =>
        (.inserted (shared.insert concept origin).1, (shared.insert concept origin).2)
      | .size => (.size shared.store.size, shared)
      | .read => (.contents shared.store.entries.toList, shared)
      | .takeBack => (.takenBack (shared.takeBack handle).1, (shared.takeBack handle).2) :=
  if_pos ((h.live handle).2 hlive)

theorem Describes.perform_of_dead (h : ledger.Describes store shared)
    (hdead : handle ∉ ledger.live) :
    shared.perform handle step = (.noHandle, shared) :=
  if_neg (mt (h.live handle).1 hdead)

/-- The ledger keeps up with every step. -/
theorem Describes.perform (h : ledger.Describes store shared) (handle : String)
    (step : HandleStep) :
    (ledger.note handle step).Describes store (shared.perform handle step).2 := by
  by_cases hlive : handle ∈ ledger.live
  · rw [note_of_live hlive, h.perform_of_live hlive]
    cases step with
    | clone other => exact h.clone other
    | drop => exact h.drop hlive
    | insert concept origin => exact (h.insert concept origin).2
    | size => exact h
    | read => exact h
    | takeBack => exact (h.takeBack hlive).2
  · rw [note_of_dead hlive, h.perform_of_dead hlive]
    exact h

/-! ## Whole histories -/

theorem Describes.performAll (h : ledger.Describes store shared)
    (history : List (String × HandleStep)) :
    (history.foldl (fun ledger turn => ledger.note turn.1 turn.2) ledger).Describes store
      (shared.performAll history).2 := by
  induction history generalizing ledger shared with
  | nil => exact h
  | cons turn rest ih => exact ih (h.perform turn.1 turn.2)

end Ledger

/-- Whether the answer hands the store over. -/
def HandleAnswer.handsOver : HandleAnswer → Bool
  | .takenBack (.ok _) => true
  | _ => false

namespace Ledger

variable {store : Store} {shared : SharedStore} {ledger : Ledger} {handle : String}
  {step : HandleStep}

/-- Where a step hands the store over, the last handle goes with it. -/
theorem Describes.note_of_handsOver (h : ledger.Describes store shared)
    (hover : (shared.perform handle step).1.handsOver = true) :
    handle ∈ ledger.live ∧ (ledger.note handle step).live = ∅ := by
  by_cases hlive : handle ∈ ledger.live
  · rw [h.perform_of_live hlive] at hover
    cases step with
    | clone _ | drop | insert _ _ | size | read => cases hover
    | takeBack =>
        refine ⟨hlive, ?_⟩
        rw [note_of_live hlive]
        by_cases honly : ledger.live = {handle}
        · show ledger.live.erase handle = ∅
          rw [honly, Finset.erase_singleton]
        · simp only [(h.takeBack hlive).1, if_neg honly] at hover
          cases hover
  · rw [h.perform_of_dead hlive] at hover
    cases hover

/-- No handle comes back once none is alive. -/
theorem note_of_empty (h : ledger.live = ∅) : ledger.note handle step = ledger :=
  note_of_dead (by rw [h]; exact Finset.notMem_empty handle)

/-- The store is handed over at most once, and only if a handle is alive. -/
theorem Describes.countP_handsOver (h : ledger.Describes store shared)
    (history : List (String × HandleStep)) :
    (shared.performAll history).1.countP HandleAnswer.handsOver ≤
      if ledger.live = ∅ then 0 else 1 := by
  induction history generalizing ledger shared with
  | nil => exact Nat.zero_le _
  | cons turn rest ih =>
      obtain ⟨handle, step⟩ := turn
      have hrest := ih (h.perform handle step)
      show ((shared.perform handle step).1 ::
        ((shared.perform handle step).2.performAll rest).1).countP _ ≤ _
      rw [List.countP_cons]
      cases hover : (shared.perform handle step).1.handsOver with
      | true =>
          obtain ⟨hlive, hnone⟩ := h.note_of_handsOver hover
          rw [if_pos hnone] at hrest
          rw [if_neg (Finset.ne_empty_of_mem hlive), if_pos rfl]
          exact Nat.add_le_add_right hrest 1
      | false =>
          rw [if_neg (by simp)]
          refine hrest.trans ?_
          by_cases hempty : ledger.live = ∅
          · rw [note_of_empty hempty]
          · rw [if_neg hempty]
            split <;> omega

end Ledger

namespace SharedStore

open Ledger

/-- Sharing a store, over every history of steps through the handles that descend from the
first one. At every point the shared store is what the admissions made so far, through
whichever handle, make of the store in their order, the count is the number of live handles,
and a name answers exactly if it is that of a live handle. Every live handle reads that
store; an admission through it is answered as by that store; and taking the store back
through it succeeds, with that store, exactly if no other handle is alive, and otherwise
reports how many are alive, itself included. Either way this handle is given up and nothing
else changes. In the whole history the store is handed over at most once. -/
theorem sharing_a_store (store : Store) (first : String) (history : List (String × HandleStep)) :
    let shared := ((ofStore store first).performAll history).2
    let ledger := Ledger.after first history
    shared.store = ledger.contents store ∧
    shared.count = ledger.live.card ∧
    (∀ handle, shared.isLive handle = true ↔ handle ∈ ledger.live) ∧
    (∀ handle ∉ ledger.live, ∀ step, shared.perform handle step = (.noHandle, shared)) ∧
    (∀ handle ∈ ledger.live,
      shared.perform handle .read =
        (.contents (ledger.contents store).entries.toList, shared) ∧
      shared.perform handle .size = (.size (ledger.contents store).size, shared) ∧
      (∀ concept origin, (shared.perform handle (.insert concept origin)).1 =
        .inserted (((ledger.contents store).insert concept origin).map Prod.fst)) ∧
      (shared.perform handle .takeBack).1 = .takenBack
        (if ledger.live = {handle} then .ok (ledger.contents store)
          else .error (.stillShared ledger.live.card)) ∧
      (shared.perform handle .takeBack).2.store = shared.store ∧
      ∀ other, (shared.perform handle .takeBack).2.isLive other = true ↔
        shared.isLive other = true ∧ other ≠ handle) ∧
    ((ofStore store first).performAll history).1.countP HandleAnswer.handsOver ≤ 1 := by
  intro shared ledger
  have hdescribes : ledger.Describes store shared :=
    (describes_opening store first).performAll history
  refine ⟨hdescribes.store, hdescribes.count, hdescribes.live,
    fun handle hdead step => hdescribes.perform_of_dead hdead, fun handle hlive => ?_, ?_⟩
  · obtain ⟨htaken, hleft⟩ := hdescribes.takeBack hlive
    simp only [hdescribes.perform_of_live hlive]
    refine ⟨by rw [hdescribes.store], by rw [hdescribes.store],
      fun concept origin => by rw [(hdescribes.insert concept origin).1], by rw [htaken],
      hleft.store.trans hdescribes.store.symm, fun other => ?_⟩
    rw [hleft.live, hdescribes.live, Finset.mem_erase, and_comm]
  · exact (describes_opening store first).countP_handsOver history

end SharedStore

end ConceptExpansion
