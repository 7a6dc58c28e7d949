/-
# Accesses that are checked

A store looks up concepts by the identifiers that its indexes give, and the order of
precedence reads and writes tables with a place for each stored concept. The definitions
say what happens if a place does not exist: nothing is found, or nothing is changed. Here
the same operations are stated with every such access checked, so that one to a place
that does not exist ends in `OutOfRange`. In a well-formed store none of them does: each
checked operation succeeds with what the operation itself yields.

Rules are free in what they look up, so `lookUpAll` looks up all there is: every key, and
every kind with all its concepts. What begins with a given first field is among these.
-/

import ConceptExpansion.Proofs.Store.Turns
import ConceptExpansion.Run.Failure

namespace ConceptExpansion

/-! ## Tables -/

/-- An access to a place that a table does not have. -/
structure OutOfRange where
  /-- The place. -/
  index : Nat
  /-- The number of places. -/
  size : Nat
  deriving DecidableEq

namespace Table

variable {α : Type}

/-- What stands at a place, which has to exist. -/
def lookup (table : Array α) (index : Nat) : Except OutOfRange α :=
  match table[index]? with
  | some a => .ok a
  | none => .error ⟨index, table.size⟩

/-- The table with another content at a place, which has to exist. -/
def update (table : Array α) (index : Nat) (f : α → α) : Except OutOfRange (Array α) :=
  if index < table.size then .ok (table.modify index f) else .error ⟨index, table.size⟩

theorem lookup_eq {table : Array α} {index : Nat} {a : α} (h : table[index]? = some a) :
    lookup table index = .ok a := by
  rw [lookup, h]

theorem lookup_getD {table : Array α} {index : Nat} (h : index < table.size) (a : α) :
    lookup table index = .ok (table.getD index a) := by
  rw [lookup_eq (Array.getElem?_eq_getElem h), Array.getD_eq_getD_getElem?,
    Array.getElem?_eq_getElem h, Option.getD_some]

theorem update_eq {table : Array α} {index : Nat} (h : index < table.size) (f : α → α) :
    update table index f = .ok (table.modify index f) :=
  if_pos h

end Table

section Attempts

variable {ε α σ β : Type} {l : List σ}

/-- A fold of attempts succeeds if its steps do, as long as they keep what they need. -/
theorem foldlM_eq_ok {I : α → Prop} {f : α → σ → α} {g : α → σ → Except ε α}
    (hstep : ∀ {a : α}, ∀ s ∈ l, I a → g a s = .ok (f a s) ∧ I (f a s)) {a : α} (h : I a) :
    l.foldlM g a = .ok (l.foldl f a) ∧ I (l.foldl f a) := by
  induction l generalizing a with
  | nil => exact ⟨rfl, h⟩
  | cons s l ih =>
      obtain ⟨hfirst, hnext⟩ := hstep s List.mem_cons_self h
      rw [List.foldlM_cons, bind_of_eq_ok hfirst, List.foldl_cons]
      exact ih (fun t ht => hstep t (List.mem_cons_of_mem _ ht)) hnext

theorem mapM_eq_ok {f : σ → β} {g : σ → Except ε β} (h : ∀ s ∈ l, g s = .ok (f s)) :
    l.mapM g = .ok (l.map f) := by
  induction l with
  | nil => rfl
  | cons s l ih =>
      rw [List.mapM_cons, bind_of_eq_ok (h s List.mem_cons_self),
        bind_of_eq_ok (ih fun t ht => h t (List.mem_cons_of_mem _ ht))]
      rfl

theorem findM?_eq_ok {p : σ → Bool} {q : σ → Except ε Bool} (h : ∀ s ∈ l, q s = .ok (p s)) :
    l.findM? q = .ok (l.find? p) := by
  induction l with
  | nil => rfl
  | cons s l ih =>
      rw [List.findM?, bind_of_eq_ok (h s List.mem_cons_self), List.find?_cons]
      cases p s with
      | true => rfl
      | false => exact ih fun t ht => h t (List.mem_cons_of_mem _ ht)

end Attempts

namespace Store

variable {store : Store}

/-! ## Lookups -/

/-- The stored concept with this identifier, which has to be stored. -/
def entryAt (store : Store) (id : ConceptId) : Except OutOfRange Entry :=
  Table.lookup store.entries id.index

/-- The stored concept with this key: if the key has an identifier, it has to be
stored. -/
def findChecked (store : Store) (key : Key) : Except OutOfRange (Option Entry) :=
  match store.idOf? key with
  | none => .ok none
  | some id => return some (← store.entryAt id)

/-- The concepts of a kind, each of which has to be stored. -/
def ofKindChecked (store : Store) (kind : String) : Except OutOfRange (List Entry) :=
  (store.keysOfKind kind).mapM fun entry => store.entryAt entry.2

/-- Looks up every key and every kind. -/
def lookUpAll (store : Store) : Except OutOfRange Unit := do
  let _ ← store.keys.mapM store.findChecked
  let _ ← store.byKind.keys.mapM store.ofKindChecked

/-- Admits a concept. A concept that is described once more is looked up by the
identifier of its key, and written back under its own. -/
def insertChecked (store : Store) (concept : Concept) (origin : Origin) :
    Except OutOfRange (Except StoreError (Admission × Store)) :=
  match store.schema.validate concept with
  | .error cause => .ok (.error (.invalid cause))
  | .ok kind =>
    match store.missingTarget? concept with
    | some target => .ok (.error (.unresolved concept.key target))
    | none => do
      match ← store.findChecked concept.key with
      | some entry =>
        let _ ← store.entryAt entry.id
        return store.reinsert kind entry concept origin
      | none => return store.insertNew kind concept origin

namespace WellFormed

theorem findChecked_eq (hstore : store.WellFormed) (key : Key) :
    store.findChecked key = .ok (store.find? key) := by
  unfold findChecked find?
  cases hid : store.idOf? key with
  | none => rfl
  | some id =>
      obtain ⟨entry, hget, -⟩ := hstore.idOf?_eq_some_iff.1 hid
      dsimp only
      rw [entryAt, Table.lookup_eq hget, Option.bind_some, hget]
      rfl

theorem ofKindChecked_eq (hstore : store.WellFormed) (kind : String) :
    store.ofKindChecked kind = .ok (store.ofKind kind) := by
  have hentries : ∀ entry ∈ store.keysOfKind kind, ∃ found, store.get? entry.2 = some found := by
    rintro ⟨key, id⟩ hmem
    obtain ⟨found, hfound, -⟩ := hstore.idOf?_eq_some_iff.1 (hstore.mem_keysOfKind.1 hmem).2
    exact ⟨found, hfound⟩
  unfold ofKindChecked ofKind
  generalize store.keysOfKind kind = list at hentries
  induction list with
  | nil => rfl
  | cons entry list ih =>
      obtain ⟨found, hfound⟩ := hentries entry List.mem_cons_self
      have hfirst : store.entryAt entry.2 = .ok found := Table.lookup_eq hfound
      rw [List.mapM_cons, bind_of_eq_ok hfirst,
        bind_of_eq_ok (ih fun other hother => hentries other (List.mem_cons_of_mem _ hother)),
        List.filterMap_cons_some (f := fun entry : Key × ConceptId => store.get? entry.2) hfound]
      rfl

theorem lookUpAll_eq (hstore : store.WellFormed) : store.lookUpAll = .ok () := by
  unfold lookUpAll
  rw [mapM_eq_ok fun key _ => hstore.findChecked_eq key]
  show (store.byKind.keys.mapM store.ofKindChecked >>= fun _ => pure ()) = _
  rw [mapM_eq_ok fun kind _ => hstore.ofKindChecked_eq kind]
  rfl

theorem insertChecked_eq (hstore : store.WellFormed) (concept : Concept) (origin : Origin) :
    store.insertChecked concept origin = .ok (store.insert concept origin) := by
  unfold insertChecked Store.insert
  cases store.schema.validate concept with
  | error cause => rfl
  | ok kind =>
      cases store.missingTarget? concept with
      | some target => rfl
      | none =>
          dsimp only
          rw [bind_of_eq_ok (hstore.findChecked_eq concept.key)]
          cases hfind : store.find? concept.key with
          | none => rfl
          | some entry =>
              have hentry : store.entryAt entry.id = .ok entry :=
                Table.lookup_eq (hstore.find?_eq_some_iff.1 hfind).1
              exact bind_of_eq_ok hentry _

end WellFormed

end Store

/-! ## The order of precedence -/

namespace Placement

/-- Takes note that one dependency of the concept is placed. -/
def releaseChecked (placement : Placement) (dependent : Key × ConceptId) :
    Except OutOfRange Placement := do
  let waiting ← Table.update placement.waiting dependent.2.index (· - 1)
  let count ← Table.lookup waiting dependent.2.index
  let placed ← Table.lookup placement.placed dependent.2.index
  let placement := { placement with waiting }
  return if count = 0 && !placed then
      { placement with ready := insertReady dependent.1 dependent.2 placement.ready }
    else placement

/-- Places a concept that the concepts `dependents` depend on. -/
def placeChecked (placement : Placement) (id : ConceptId) (dependents : List (Key × ConceptId)) :
    Except OutOfRange Placement := do
  let placed ← Table.update placement.placed id.index fun _ => true
  dependents.foldlM releaseChecked
    { placement with
      ready := placement.ready.filter (·.2 ≠ id)
      unplaced := placement.unplaced.filter (·.2 ≠ id)
      placed
      order := placement.order.push id }

/-- The tables have this number of places. -/
structure Fits (placement : Placement) (size : Nat) : Prop where
  waiting : placement.waiting.size = size
  placed : placement.placed.size = size

variable {placement : Placement} {size : Nat}

theorem Fits.release (h : placement.Fits size) {dependent : Key × ConceptId}
    (hdependent : dependent.2.index < size) :
    placement.releaseChecked dependent = .ok (placement.release dependent) ∧
      (placement.release dependent).Fits size := by
  have hplaced : dependent.2.index < placement.placed.size := h.placed ▸ hdependent
  have hwaiting : dependent.2.index < placement.waiting.size := h.waiting ▸ hdependent
  have hwaiting' : dependent.2.index <
      (placement.waiting.modify dependent.2.index (· - 1)).size := by
    rwa [Array.size_modify]
  constructor
  · unfold releaseChecked
    rw [bind_of_eq_ok (Table.update_eq hwaiting _), bind_of_eq_ok (Table.lookup_getD hwaiting' 0),
      bind_of_eq_ok (Table.lookup_getD hplaced false)]
    rfl
  · rw [release_eq]
    exact ⟨(Array.size_modify ..).trans h.waiting, h.placed⟩

theorem Fits.place (h : placement.Fits size) {id : ConceptId} (hid : id.index < size)
    {dependents : List (Key × ConceptId)}
    (hdependents : ∀ dependent ∈ dependents, dependent.2.index < size) :
    placement.placeChecked id dependents = .ok (placement.place id dependents) ∧
      (placement.place id dependents).Fits size := by
  have hseat : (placement.seat id).Fits size :=
    ⟨h.waiting, (Array.size_modify ..).trans h.placed⟩
  obtain ⟨hfold, hfits⟩ := foldlM_eq_ok (I := (Fits · size)) (f := Placement.release)
    (g := releaseChecked)
    (fun dependent hdependent hplacement => hplacement.release (hdependents dependent hdependent))
    hseat
  refine ⟨?_, hfits⟩
  unfold placeChecked
  rw [bind_of_eq_ok (Table.update_eq (h.placed ▸ hid) _)]
  exact hfold

end Placement

namespace Store

variable {store : Store} {placement : Placement}

/-- For every concept, the concepts that depend on it. Each concept has a place of its
own, where its key references and the number of its dependencies are noted. -/
def dependentsChecked (store : Store) : Except OutOfRange (Array (List (Key × ConceptId))) :=
  store.entries.toList.foldlM (fun table entry => do
    let _ ← Table.lookup table entry.id.index
    (store.dependencies entry.id).foldlM (fun table dependency =>
      Table.update table dependency.index ((entry.key, entry.id) :: ·)) table)
    (Array.replicate store.size [])

/-- For every concept, the concepts that its key fields refer to. -/
def keyDependencyTable (store : Store) : Array (List ConceptId) :=
  store.entries.map fun entry => store.keyDependencies entry.id

/-- The concept to place next. -/
def nextPlacedChecked (required : Array (List ConceptId)) (placement : Placement) :
    Except OutOfRange (Option ConceptId) :=
  match placement.ready with
  | entry :: _ => .ok (some entry.2)
  | [] => do
    let first ← placement.unplaced.findM? fun entry => do
      let dependencies ← Table.lookup required entry.2.index
      let placed ← dependencies.mapM fun id => Table.lookup placement.placed id.index
      return placed.all id
    return first.map (·.2)

/-- Places up to `steps` further concepts. -/
def placeStepsChecked (required : Array (List ConceptId))
    (dependents : Array (List (Key × ConceptId))) : Nat → Placement → Except OutOfRange Placement
  | 0, placement => .ok placement
  | steps + 1, placement => do
    match ← nextPlacedChecked required placement with
    | none => return placement
    | some id =>
      let waiting ← Table.lookup dependents id.index
      let next ← placement.placeChecked id waiting
      placeStepsChecked required dependents steps next

/-- Every stored concept, dependencies first. -/
def precedenceChecked (store : Store) : Except OutOfRange (List ConceptId) := do
  let dependents ← store.dependentsChecked
  let last ← placeStepsChecked store.keyDependencyTable dependents store.size store.startPlacement
  return last.order.toList

theorem WellFormed.dependentsChecked_eq (hstore : store.WellFormed) :
    store.dependentsChecked = .ok store.dependents ∧ store.dependents.size = store.size := by
  apply foldlM_eq_ok (I := fun table : Array (List (Key × ConceptId)) => table.size = store.size)
  · intro table entry hentry hsize
    have hget := hstore.get?_of_mem (Array.mem_toList_iff.1 hentry)
    have hown : entry.id.index < table.size :=
      hsize ▸ hstore.index_lt (hstore.mem_ids.2 ⟨entry, hget⟩)
    rw [bind_of_eq_ok (Table.lookup_getD hown [])]
    apply foldlM_eq_ok (I := fun table : Array (List (Key × ConceptId)) => table.size = store.size)
    · intro table dependency hdependency hsize
      have hdepends : store.DependsOn entry.id dependency := hdependency
      have hindex : dependency.index < table.size :=
        hsize ▸ hstore.index_lt (hdepends.mem_ids hstore).2
      exact ⟨Table.update_eq hindex _, (Array.size_modify ..).trans hsize⟩
    · exact hsize
  · exact Array.size_replicate

theorem WellFormed.lookup_keyDependencyTable (hstore : store.WellFormed) {id : ConceptId}
    (hid : id ∈ store.ids) :
    Table.lookup store.keyDependencyTable id.index = .ok (store.keyDependencies id) := by
  obtain ⟨entry, hget⟩ := hstore.mem_ids.1 hid
  have hentry : store.entries[id.index]? = some entry := hget
  apply Table.lookup_eq
  rw [keyDependencyTable, Array.getElem?_map, hentry, Option.map_some, hstore.id_of_get? hget]

theorem WellFormed.nextPlacedChecked_eq (hstore : store.WellFormed)
    (h : placement.Tracks store []) :
    nextPlacedChecked store.keyDependencyTable placement = .ok (store.nextPlaced? placement) := by
  unfold nextPlacedChecked nextPlaced?
  cases placement.ready with
  | cons entry rest => rfl
  | nil =>
      have hsearch : ∀ entry ∈ placement.unplaced,
          (Table.lookup store.keyDependencyTable entry.2.index >>= fun dependencies =>
            dependencies.mapM (fun id => Table.lookup placement.placed id.index) >>= fun placed =>
              pure (placed.all id)) =
            .ok ((store.keyDependencies entry.2).all placement.isPlaced) := by
        rintro ⟨key, id⟩ hmem
        have hkey : store.idOf? key = some id := by
          rw [h.unplaced] at hmem
          exact mem_byKey.1 (List.mem_filter.1 hmem).1
        obtain ⟨entry, hget, -⟩ := hstore.idOf?_eq_some_iff.1 hkey
        rw [bind_of_eq_ok (hstore.lookup_keyDependencyTable (hstore.mem_ids.2 ⟨entry, hget⟩)),
          bind_of_eq_ok (mapM_eq_ok (f := placement.isPlaced) ?_)]
        · show Except.ok _ = _
          rw [List.all_map]
          rfl
        · intro other hother
          have hstored := ((mem_keyDependencies_iff hstore).1 hother).dependsOn hstore
          exact Table.lookup_getD (h.size ▸ hstore.index_lt (hstored.mem_ids hstore).2) false
      rw [bind_of_eq_ok (findM?_eq_ok hsearch)]
      rfl

theorem WellFormed.placeStepsChecked_eq (hstore : store.WellFormed)
    (h : placement.Tracks store []) (hfits : placement.Fits store.size) (steps : Nat) :
    placeStepsChecked store.keyDependencyTable store.dependents steps placement =
      .ok (store.placeSteps store.dependents steps placement) := by
  induction steps generalizing placement with
  | zero => rfl
  | succ steps ih =>
      unfold placeStepsChecked placeSteps
      rw [bind_of_eq_ok (hstore.nextPlacedChecked_eq h)]
      cases hnext : store.nextPlaced? placement with
      | none => rfl
      | some id =>
          obtain ⟨hid, hnew⟩ := unplaced_of_nextPlaced? hstore h hnext
          have hdependents : id.index < store.dependents.size :=
            hstore.dependentsChecked_eq.2 ▸ hstore.index_lt hid
          have hwaiting : ∀ dependent ∈ store.dependents.getD id.index [],
              dependent.2.index < store.size := by
            rintro ⟨key, dependent⟩ hmem
            have hdepends : store.DependsOn dependent id :=
              ((Placement.mem_dependents hstore hid).1 hmem).2
            exact hstore.index_lt (hdepends.mem_ids hstore).1
          obtain ⟨hplace, hfits'⟩ := hfits.place (hstore.index_lt hid) hwaiting
          dsimp only
          rw [bind_of_eq_ok (Table.lookup_getD hdependents []), bind_of_eq_ok hplace]
          exact ih (h.place hstore hid hnew) hfits'

theorem WellFormed.precedenceChecked_eq (hstore : store.WellFormed) :
    store.precedenceChecked = .ok store.precedence := by
  have hfits : store.startPlacement.Fits store.size :=
    ⟨Array.size_map .., Array.size_replicate⟩
  unfold precedenceChecked
  rw [bind_of_eq_ok hstore.dependentsChecked_eq.1, bind_of_eq_ok (hstore.placeStepsChecked_eq
    (tracks_startPlacement hstore) hfits store.size)]
  rfl

end Store

end ConceptExpansion
