/-
# Sharing a store

Several producers may write into one store, each through a handle of its own.
Admissions take turns, so the store is always what one producer after the other
has made of it. The store can be taken back once a single handle is left: the
attempt gives up its handle in any case, and while others exist it answers how
many there were.
-/

import ConceptExpansion.Store.Admission

namespace ConceptExpansion

/-- A store with the handles to it. -/
structure SharedStore where
  /-- The contents that every handle sees. -/
  store : Store
  /-- The names of the live handles. -/
  handles : NameSet
  /-- The number of live handles, counted by the operations on them. -/
  count : Nat

namespace SharedStore

/-- The store with one handle to it. -/
def ofStore (store : Store) (handle : String) : SharedStore where
  store := store
  handles := NameSet.ofNames [handle]
  count := 1

/-- Whether a handle of this name is live. -/
def isLive (shared : SharedStore) (handle : String) : Bool :=
  shared.handles.contains handle

/-- Gives up a handle. -/
def drop (shared : SharedStore) (handle : String) : SharedStore :=
  if shared.isLive handle then
    { shared with
      handles := shared.handles.erase handle
      count := shared.count - 1 }
  else shared

/-- Makes another handle. A live handle of the same name is given up for it, but
only after the new one exists. -/
def clone (shared : SharedStore) (handle : String) : SharedStore :=
  let count := shared.count + 1
  if shared.isLive handle then { shared with count := count - 1 }
  else { shared with handles := shared.handles.insert handle (), count }

/-- Admits a concept through a handle. -/
def insert (shared : SharedStore) (concept : Concept) (origin : Origin) :
    Except StoreError Admission × SharedStore :=
  match shared.store.insert concept origin with
  | .ok (admission, store) => (.ok admission, { shared with store })
  | .error error => (.error error, shared)

/-- Takes the store back through a handle, which is given up. -/
def takeBack (shared : SharedStore) (handle : String) :
    Except StoreError Store × SharedStore :=
  if shared.count = 1 then (.ok shared.store, shared.drop handle)
  else (.error (.stillShared shared.count), shared.drop handle)

end SharedStore

/-- What can be done through a handle. -/
inductive HandleStep where
  /-- Make another handle of this name. -/
  | clone (handle : String)
  /-- Give the handle up. -/
  | drop
  /-- Admit a concept. -/
  | insert (concept : Concept) (origin : Origin)
  /-- Ask for the number of stored concepts. -/
  | size
  /-- Ask for the stored concepts. -/
  | read
  /-- Take the store back. -/
  | takeBack

/-- What a step through a handle answers. -/
inductive HandleAnswer where
  /-- There is no such handle, and nothing happened. -/
  | noHandle
  /-- The new handle exists. -/
  | cloned
  /-- The handle is given up. -/
  | dropped
  /-- What the store said to the concept. -/
  | inserted (answer : Except StoreError Admission)
  /-- The number of stored concepts. -/
  | size (size : Nat)
  /-- The stored concepts, in the order of admission. -/
  | contents (entries : List Entry)
  /-- The store, if the handle was the last one. -/
  | takenBack (answer : Except StoreError Store)

namespace SharedStore

/-- Does one step through a handle. -/
def perform (shared : SharedStore) (handle : String) (step : HandleStep) :
    HandleAnswer × SharedStore :=
  if shared.isLive handle then
    match step with
    | .clone other => (.cloned, shared.clone other)
    | .drop => (.dropped, shared.drop handle)
    | .insert concept origin =>
      let (answer, shared) := shared.insert concept origin
      (.inserted answer, shared)
    | .size => (.size shared.store.size, shared)
    | .read => (.contents shared.store.entries.toList, shared)
    | .takeBack =>
      let (answer, shared) := shared.takeBack handle
      (.takenBack answer, shared)
  else (.noHandle, shared)

/-- Does one step after the other and keeps the answers. -/
def performAll (shared : SharedStore) :
    List (String × HandleStep) → List HandleAnswer × SharedStore
  | [] => ([], shared)
  | (handle, step) :: rest =>
    let (answer, next) := shared.perform handle step
    let (answers, last) := performAll next rest
    (answer :: answers, last)

end SharedStore

end ConceptExpansion
