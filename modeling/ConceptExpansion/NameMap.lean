/-
# Finite maps from names

Payloads, schemas and registries are all finite maps from names, and all of
them are shown in ascending order of the names. `NameMap` keeps that order in
the data, so two maps with the same bindings are equal and walking a map needs
no sorting. `NameSet` is the special case in which only the names matter.
-/

namespace ConceptExpansion

/-- A finite map from names. -/
structure NameMap (α : Type) where
  /-- The bindings, one per name. -/
  entries : List (String × α)
  /-- The names ascend strictly. -/
  ascending : entries.Pairwise fun a b => a.1 < b.1
  deriving DecidableEq

namespace NameMap

variable {α β : Type}

/-- The map without bindings. -/
def empty : NameMap α := ⟨[], .nil⟩

instance : EmptyCollection (NameMap α) := ⟨empty⟩

instance : Inhabited (NameMap α) := ⟨∅⟩

/-- Puts a binding into an ascending list, in place of the binding of the same
name if there is one. -/
def insertEntry (name : String) (value : α) : List (String × α) → List (String × α)
  | [] => [(name, value)]
  | entry :: rest =>
    if name < entry.1 then (name, value) :: entry :: rest
    else if name = entry.1 then (name, value) :: rest
    else entry :: insertEntry name value rest

/-- Every name after an insertion is the new one or was there before. -/
theorem mem_insertEntry {name : String} {value : α} {entries : List (String × α)}
    {entry : String × α} (h : entry ∈ insertEntry name value entries) :
    entry = (name, value) ∨ entry ∈ entries := by
  induction entries with
  | nil => simpa [insertEntry] using h
  | cons first rest ih =>
    unfold insertEntry at h
    split at h
    · simpa using h
    · split at h
      · rcases List.mem_cons.1 h with h | h
        · exact .inl h
        · exact .inr (List.mem_cons_of_mem _ h)
      · rcases List.mem_cons.1 h with h | h
        · exact .inr (h ▸ List.mem_cons_self)
        · exact (ih h).imp id (List.mem_cons_of_mem _)

theorem pairwise_insertEntry {name : String} {value : α} {entries : List (String × α)}
    (h : entries.Pairwise fun a b => a.1 < b.1) :
    (insertEntry name value entries).Pairwise fun a b => a.1 < b.1 := by
  induction entries with
  | nil => simp [insertEntry]
  | cons first rest ih =>
    obtain ⟨hfirst, hrest⟩ := List.pairwise_cons.1 h
    unfold insertEntry
    split
    · next hlt =>
      refine List.pairwise_cons.2 ⟨fun entry hentry => ?_, h⟩
      rcases List.mem_cons.1 hentry with rfl | hentry
      · exact hlt
      · exact String.lt_trans hlt (hfirst entry hentry)
    · next hnlt =>
      split
      · next heq =>
        exact List.pairwise_cons.2 ⟨fun entry hentry => heq ▸ hfirst entry hentry, hrest⟩
      · next hne =>
        refine List.pairwise_cons.2 ⟨fun entry hentry => ?_, ih hrest⟩
        rcases mem_insertEntry hentry with rfl | hentry
        · exact Std.lt_of_le_of_ne (String.not_lt.1 hnlt) (Ne.symm hne)
        · exact hfirst entry hentry

/-- Binds `name` to `value`, in place of an earlier binding of it. -/
def insert (map : NameMap α) (name : String) (value : α) : NameMap α :=
  ⟨insertEntry name value map.entries, pairwise_insertEntry map.ascending⟩

/-- Drops the binding of `name`. -/
def erase (map : NameMap α) (name : String) : NameMap α where
  entries := map.entries.filter (·.1 ≠ name)
  ascending := map.ascending.filter _

/-- The value bound to `name`. -/
def get? (map : NameMap α) (name : String) : Option α :=
  map.entries.lookup name

/-- Whether `name` is bound. -/
def contains (map : NameMap α) (name : String) : Bool :=
  (map.get? name).isSome

/-- The bound names, ascending. -/
def names (map : NameMap α) : List String :=
  map.entries.map (·.1)

/-- The values, in the order of their names. -/
def values (map : NameMap α) : List α :=
  map.entries.map (·.2)

/-- The number of bindings. -/
def size (map : NameMap α) : Nat :=
  map.entries.length

/-- Whether nothing is bound. -/
def isEmpty (map : NameMap α) : Bool :=
  map.entries.isEmpty

/-- The map with every value replaced by what `f` makes of it and its name. -/
def mapValues (f : String → α → β) (map : NameMap α) : NameMap β where
  entries := map.entries.map fun entry => (entry.1, f entry.1 entry.2)
  ascending := by
    rw [List.pairwise_map]
    exact map.ascending

/-- The map of these bindings; of several bindings of a name the last counts. -/
def ofList (entries : List (String × α)) : NameMap α :=
  entries.foldl (fun map entry => map.insert entry.1 entry.2) ∅

end NameMap

/-- A finite set of names. -/
abbrev NameSet := NameMap Unit

namespace NameSet

/-- The set of these names. -/
def ofNames (names : List String) : NameSet :=
  NameMap.ofList (names.map fun name => (name, ()))

example : (ofNames ["b", "a", "b"]).names = ["a", "b"] := by decide

end NameSet

end ConceptExpansion
