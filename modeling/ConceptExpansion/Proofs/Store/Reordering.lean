/-
# Offers in another order

Conflicts are symmetric, unions are too, and a first description is stored in the same
form in which later ones are merged with it. So if every one of some offers succeeds,
their order matters only for the key references: one that is offered before its targets
is refused. If that happens to none of them, the offers succeed in any other order and
the stores that they lead to say the same of every key. Identifiers and origins are
another matter, since they tell who came first.

The argument goes through one bound. The store at which one order arrives represents
all that was offered. Along another order the store stays below that one, and below it
there is nothing to conflict with and room enough. With the roles exchanged the two
stores lie below each other.
-/

import ConceptExpansion.Proofs.Store.Contents
import ConceptExpansion.Proofs.Store.History

namespace ConceptExpansion

namespace Store

variable {a b store : Store} {attempts reordered : List (Concept × Origin)}

/-- Every one of the offers succeeds. -/
def Accepts (store : Store) (attempts : List (Concept × Origin)) : Prop :=
  ∀ answer ∈ (store.insertAll attempts).1, ∃ admission, answer = .ok admission

/-- None of the offers is refused because a key reference of it leads nowhere. -/
def LeavesNoneUnresolved (store : Store) (attempts : List (Concept × Origin)) : Prop :=
  ∀ answer ∈ (store.insertAll attempts).1, ∀ referrer target,
    answer ≠ .error (.unresolved referrer target)

theorem Accepts.leavesNoneUnresolved (h : store.Accepts attempts) :
    store.LeavesNoneUnresolved attempts := by
  intro answer hanswer referrer target herror
  obtain ⟨admission, hok⟩ := h answer hanswer
  cases hok.symm.trans herror

section Cons

variable {next : Store} {concept : Concept} {origin : Origin} {admission : Admission}

theorem accepts_cons_iff (hinsert : store.insert concept origin = .ok (admission, next)) :
    store.Accepts ((concept, origin) :: attempts) ↔ next.Accepts attempts := by
  simp [Accepts, insertAll_cons_of_ok hinsert]

theorem leavesNoneUnresolved_cons_iff
    (hinsert : store.insert concept origin = .ok (admission, next)) :
    store.LeavesNoneUnresolved ((concept, origin) :: attempts) ↔
      next.LeavesNoneUnresolved attempts := by
  simp [LeavesNoneUnresolved, insertAll_cons_of_ok hinsert]

theorem Accepts.exists_insert (h : store.Accepts ((concept, origin) :: attempts)) :
    ∃ admission next, store.insert concept origin = .ok (admission, next) ∧
      next.Accepts attempts := by
  cases hinsert : store.insert concept origin with
  | error error =>
      obtain ⟨admission, hok⟩ := h (.error error) (by simp [insertAll_cons_of_error hinsert])
      cases hok
  | ok answer => exact ⟨answer.1, answer.2, rfl, (accepts_cons_iff hinsert).1 h⟩

/-- A concept that fits the schema waits for a key reference only if the answer says so. -/
theorem LeavesNoneUnresolved.missingTarget? {kind : KindDef}
    (h : store.LeavesNoneUnresolved ((concept, origin) :: attempts))
    (hvalid : store.schema.validate concept = .ok kind) :
    store.missingTarget? concept = none := by
  cases hmissing : store.missingTarget? concept with
  | none => rfl
  | some target =>
      have hinsert : store.insert concept origin = .error (.unresolved concept.key target) := by
        simp [Store.insert, hvalid, hmissing]
      have hanswer : .error (.unresolved concept.key target) ∈
          (store.insertAll ((concept, origin) :: attempts)).1 := by
        simp [insertAll_cons_of_error hinsert]
      exact absurd rfl (h _ hanswer concept.key target)

end Cons

/-- The store at which successful offers arrive represents all that was offered. -/
theorem Accepts.represents (h : store.Accepts attempts) (hstore : store.WellFormed) :
    ∀ attempt ∈ attempts, (store.insertAll attempts).2.Represents attempt.1 := by
  induction attempts generalizing store with
  | nil => simp
  | cons attempt rest ih =>
      obtain ⟨concept, origin⟩ := attempt
      obtain ⟨admission, next, hinsert, hrest⟩ := h.exists_insert
      have hnext := hstore.insert hinsert
      obtain ⟨hlast, hgrows⟩ := hnext.insertAll rest
      rw [insertAll_cons_of_ok hinsert, List.forall_mem_cons]
      exact ⟨(hstore.represents_of_insert hinsert).grows hgrows hnext hlast, ih hrest hnext⟩

/-- What a store that lies above represents can be offered in any order: all of it is
accepted, unless a key reference leads nowhere, and the store stays below. -/
theorem Below.insertAll (h : a.Below b) (ha : a.WellFormed) (hb : b.WellFormed)
    (hattempts : ∀ attempt ∈ attempts, b.Represents attempt.1)
    (hresolved : a.LeavesNoneUnresolved attempts) :
    a.Accepts attempts ∧ (a.insertAll attempts).2.Below b := by
  induction attempts generalizing a with
  | nil => exact ⟨by simp [Accepts], h⟩
  | cons attempt rest ih =>
      obtain ⟨concept, origin⟩ := attempt
      obtain ⟨hconcept, hrest⟩ := List.forall_mem_cons.1 hattempts
      obtain ⟨kind, hvalid⟩ := hb.validate_of_represents hconcept
      rw [← h.schema] at hvalid
      have hmissing := hresolved.missingTarget? hvalid
      obtain ⟨admission, next, hinsert, hbelow⟩ := h.insert ha hb hconcept hmissing origin
      rw [accepts_cons_iff hinsert, insertAll_cons_of_ok hinsert]
      exact ih hbelow (ha.insert hinsert) hrest ((leavesNoneUnresolved_cons_iff hinsert).1 hresolved)

/-- If all offers succeed in one order, and in another one none of them comes before the
targets of its key references, then all of them succeed in the other order as well, and
the two stores say the same of every key. -/
theorem Reachable.insertAll_reordered (h : store.Reachable) (hperm : attempts.Perm reordered)
    (haccepts : store.Accepts attempts) (hresolved : store.LeavesNoneUnresolved reordered) :
    store.Accepts reordered ∧
      (store.insertAll attempts).2.SameContents (store.insertAll reordered).2 := by
  have hstore := h.wellFormed
  obtain ⟨ha, hgrows⟩ := hstore.insertAll attempts
  obtain ⟨hb, hgrows'⟩ := hstore.insertAll reordered
  have hrepresents : ∀ attempt ∈ reordered,
      (store.insertAll attempts).2.Represents attempt.1 := fun attempt hattempt =>
    haccepts.represents hstore attempt (hperm.mem_iff.2 hattempt)
  obtain ⟨haccepts', hbelow'⟩ :=
    (hgrows.below hstore ha).insertAll hstore ha hrepresents hresolved
  have hrepresents' : ∀ attempt ∈ attempts,
      (store.insertAll reordered).2.Represents attempt.1 := fun attempt hattempt =>
    haccepts'.represents hstore attempt (hperm.mem_iff.1 hattempt)
  obtain ⟨-, hbelow⟩ := (hgrows'.below hstore hb).insertAll hstore hb hrepresents'
    haccepts.leavesNoneUnresolved
  exact ⟨haccepts', hbelow.antisymm hbelow' ha hb⟩

end Store

/-! ## A guest book -/

namespace GuestBook

/-- Guests, and a page for every guest, on which lines add up. -/
def schema : Schema :=
  .ofKinds [{ name := "G", keyFields := ["n"] },
    { name := "P", keyFields := ["of"], cumulative := .ofNames ["lines"] }]

/-- A guest, by number. -/
def guest (n : Int64) : Concept :=
  { kind := "G", fields := [.int n] }

/-- Some lines on the page of a guest. -/
def page (n : Int64) (lines : Value) : Concept where
  kind := "P"
  fields := [(guest n).reference]
  payload := .ofList [("lines", lines)]

/-- A book with one guest in it. -/
def book : Store := ((Store.empty schema).insertAll [(guest 1, .seed 0)]).2

theorem book_reachable : book.Reachable :=
  (Store.Reachable.empty schema).insertAll _

/-- A second guest comes, and both of them write. -/
def lines : List (Concept × Origin) :=
  [(page 1 .null, .seed 1), (page 1 (.int 2), .seed 2), (guest 2, .seed 3),
    (page 1 (.list [.int 3, .int 1]), .seed 4), (page 2 (.list [.list [.int 1]]), .seed 5)]

/-- The same, beginning with the last lines of the first guest. -/
def shuffled : List (Concept × Origin) :=
  [(page 1 (.list [.int 3, .int 1]), .seed 4), (guest 2, .seed 3),
    (page 2 (.list [.list [.int 1]]), .seed 5), (page 1 .null, .seed 1),
    (page 1 (.int 2), .seed 2)]

/-- In the one order an empty page is entered first and grows twice, in the other one it
is entered with lines on it. The book says the same in the end. -/
theorem insertAll_shuffled : book.Accepts shuffled ∧
    (book.insertAll lines).2.SameContents (book.insertAll shuffled).2 := by
  have hperm : lines.Perm shuffled := by decide
  have hlines : (book.insertAll lines).1 =
      [.ok (.admitted ⟨1, by decide⟩), .ok (.merged ⟨1, by decide⟩),
        .ok (.admitted ⟨2, by decide⟩), .ok (.merged ⟨1, by decide⟩),
        .ok (.admitted ⟨3, by decide⟩)] := by cbv
  have hshuffled : (book.insertAll shuffled).1 =
      [.ok (.admitted ⟨1, by decide⟩), .ok (.admitted ⟨2, by decide⟩),
        .ok (.admitted ⟨3, by decide⟩), .ok (.alreadyPresent ⟨1, by decide⟩),
        .ok (.merged ⟨1, by decide⟩)] := by cbv
  have haccepts : book.Accepts lines := by simp [Store.Accepts, hlines]
  have hresolved : book.LeavesNoneUnresolved shuffled := by
    simp [Store.LeavesNoneUnresolved, hshuffled]
  exact book_reachable.insertAll_reordered hperm haccepts hresolved

end GuestBook

end ConceptExpansion
