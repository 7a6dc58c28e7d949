/-
# Maps are determined by their bindings

A `NameMap` keeps its bindings in ascending order of the names, so a map is
nothing but the function that looks names up: two maps that answer alike are
equal, and every operation is described by what its result answers.
-/

import Mathlib
import ConceptExpansion.NameMap

namespace ConceptExpansion

namespace NameMap

variable {α β : Type}

theorem lookup_cons (name : String) (entry : String × α) (rest : List (String × α)) :
    (entry :: rest).lookup name =
      if name = entry.1 then some entry.2 else rest.lookup name := by
  by_cases hname : name = entry.1
  · simp [List.lookup, hname]
  · have hbeq : (name == entry.1) = false := beq_false_of_ne hname
    simp [List.lookup, hbeq, hname]

theorem lookup_insertEntry (name other : String) (value : α) (entries : List (String × α)) :
    (insertEntry name value entries).lookup other =
      if other = name then some value else entries.lookup other := by
  induction entries with
  | nil => simp [insertEntry, lookup_cons]
  | cons entry rest ih =>
      unfold insertEntry
      split
      · rw [lookup_cons]
      · split
        · next heq =>
            subst heq
            rw [lookup_cons, lookup_cons]
            split <;> rfl
        · next hne =>
            rw [lookup_cons, lookup_cons, ih]
            by_cases hother : other = entry.1
            · have hname : other ≠ name := fun h => hne (h.symm.trans hother)
              rw [if_pos hother, if_neg hname, if_pos hother]
            · rw [if_neg hother, if_neg hother]

@[simp]
theorem get?_empty (name : String) : (∅ : NameMap α).get? name = none := rfl

/-- An insertion binds its own name and leaves every other name alone. -/
theorem get?_insert (map : NameMap α) (name other : String) (value : α) :
    (map.insert name value).get? other =
      if other = name then some value else map.get? other :=
  lookup_insertEntry name other value map.entries

/-- Dropping a binding leaves every other name alone. -/
theorem get?_erase (map : NameMap α) (name other : String) :
    (map.erase name).get? other = if other = name then none else map.get? other := by
  show (map.entries.filter (·.1 ≠ name)).lookup other =
    if other = name then none else map.entries.lookup other
  induction map.entries with
  | nil => simp
  | cons entry rest ih =>
      rw [List.filter_cons, lookup_cons]
      by_cases hentry : entry.1 = name
      · rw [if_neg (by simpa using hentry), ih]
        by_cases hother : other = name
        · rw [if_pos hother, if_pos hother]
        · rw [if_neg hother, if_neg hother, if_neg fun h => hother (h.trans hentry)]
      · rw [if_pos (by simpa using hentry), lookup_cons, ih]
        by_cases hother : other = entry.1
        · rw [if_pos hother, if_pos hother, if_neg fun h => hentry (hother.symm.trans h)]
        · rw [if_neg hother, if_neg hother]

theorem lookup_eq_some_iff {entries : List (String × α)} {name : String} {value : α}
    (hascending : entries.Pairwise fun a b => a.1 < b.1) :
    entries.lookup name = some value ↔ (name, value) ∈ entries := by
  induction entries with
  | nil => simp
  | cons entry rest ih =>
      obtain ⟨hfirst, hrest⟩ := List.pairwise_cons.1 hascending
      rw [lookup_cons, List.mem_cons]
      by_cases hname : name = entry.1
      · have hnot : (name, value) ∉ rest := fun hmem =>
          String.lt_irrefl entry.1 (hname ▸ hfirst _ hmem)
        rw [if_pos hname, Option.some.injEq, Prod.ext_iff]
        exact ⟨fun h => .inl ⟨hname, h.symm⟩, fun h => (h.resolve_right hnot).2.symm⟩
      · rw [if_neg hname, ih hrest]
        exact ⟨.inr, fun h => h.resolve_left fun heq => hname (heq ▸ rfl)⟩

theorem ascending_names (map : NameMap α) : map.names.Pairwise (· < ·) :=
  List.pairwise_map.2 map.ascending

theorem nodup_names (map : NameMap α) : map.names.Nodup := by
  have hne : ∀ {a b : String}, a < b → a ≠ b := fun hlt heq => String.lt_irrefl _ (heq ▸ hlt)
  exact map.ascending_names.imp hne

theorem get?_eq_some_iff (map : NameMap α) {name : String} {value : α} :
    map.get? name = some value ↔ (name, value) ∈ map.entries :=
  lookup_eq_some_iff map.ascending

theorem mem_names_iff (map : NameMap α) {name : String} :
    name ∈ map.names ↔ (map.get? name).isSome := by
  rw [Option.isSome_iff_exists]
  simp [names, get?_eq_some_iff]

/-- Maps that answer alike are equal. -/
theorem ext_get? {a b : NameMap α} (h : ∀ name, a.get? name = b.get? name) : a = b := by
  have hnodup : ∀ map : NameMap α, map.entries.Nodup := fun map => map.nodup_names.of_map _
  have hmem : ∀ entry, entry ∈ a.entries ↔ entry ∈ b.entries := fun (name, value) => by
    rw [← get?_eq_some_iff, ← get?_eq_some_iff, h]
  have hperm : a.entries.Perm b.entries :=
    (List.perm_ext_iff_of_nodup (hnodup a) (hnodup b)).2 hmem
  have hentries : a.entries = b.entries :=
    hperm.eq_of_pairwise
      (fun x _ _ _ hxy hyx => absurd (String.lt_trans hxy hyx) (String.lt_irrefl x.1))
      a.ascending b.ascending
  cases a
  cases b
  simpa using hentries

theorem sum_insertEntry (weight : α → Nat) (name : String) (value : α)
    {entries : List (String × α)} (h : entries.Pairwise fun a b => a.1 < b.1) :
    ((insertEntry name value entries).map (weight ·.2)).sum +
        ((entries.lookup name).map weight).getD 0 =
      (entries.map (weight ·.2)).sum + weight value := by
  induction entries with
  | nil => simp [insertEntry]
  | cons entry rest ih =>
      obtain ⟨hfirst, hrest⟩ := List.pairwise_cons.1 h
      unfold insertEntry
      split
      · next hlt =>
          have hlookup : (entry :: rest).lookup name = none := by
            by_contra hbound
            obtain ⟨found, hfound⟩ := Option.ne_none_iff_exists'.1 hbound
            rcases List.mem_cons.1 ((lookup_eq_some_iff h).1 hfound) with rfl | hmem
            · exact String.lt_irrefl name hlt
            · exact String.lt_irrefl name (String.lt_trans hlt (hfirst _ hmem))
          rw [hlookup]
          simp only [List.map_cons, List.sum_cons, Option.map_none, Option.getD_none]
          omega
      · rw [lookup_cons]
        split
        · simp only [List.map_cons, List.sum_cons, Option.map_some, Option.getD_some]
          omega
        · simp only [List.map_cons, List.sum_cons]
          have hsum := ih hrest
          omega

/-- An insertion adds the weight of its value and takes off that of the value it
replaces. -/
theorem sum_values_insert (map : NameMap α) (weight : α → Nat) (name : String) (value : α) :
    ((map.insert name value).values.map weight).sum + ((map.get? name).map weight).getD 0 =
      (map.values.map weight).sum + weight value := by
  simp only [values, List.map_map]
  exact sum_insertEntry weight name value map.ascending

theorem get?_mapValues (f : String → α → β) (map : NameMap α) (name : String) :
    (map.mapValues f).get? name = (map.get? name).map (f name) := by
  show (map.entries.map fun entry => (entry.1, f entry.1 entry.2)).lookup name =
    (map.entries.lookup name).map (f name)
  induction map.entries with
  | nil => rfl
  | cons entry rest ih =>
      rw [List.map_cons, lookup_cons, lookup_cons, ih]
      split
      · next hname => rw [hname, Option.map_some]
      · rfl

theorem isSome_get?_foldl_insert (entries : List (String × α)) (map : NameMap α)
    (name : String) :
    ((entries.foldl (fun map entry => map.insert entry.1 entry.2) map).get? name).isSome ↔
      name ∈ entries.map (·.1) ∨ (map.get? name).isSome := by
  induction entries generalizing map with
  | nil => simp
  | cons entry rest ih =>
      rw [List.foldl_cons, ih, get?_insert, List.map_cons, List.mem_cons]
      by_cases hname : name = entry.1 <;> simp [hname]

/-- Insertions of ascending bindings put them in front of what was bound before. -/
theorem get?_foldl_insert {entries : List (String × α)}
    (h : entries.Pairwise fun a b => a.1 < b.1) (map : NameMap α) (name : String) :
    (entries.foldl (fun map entry => map.insert entry.1 entry.2) map).get? name =
      (entries.lookup name).or (map.get? name) := by
  induction entries generalizing map with
  | nil => rfl
  | cons entry rest ih =>
      obtain ⟨hfirst, hrest⟩ := List.pairwise_cons.1 h
      rw [List.foldl_cons, ih hrest, get?_insert, lookup_cons]
      by_cases hname : name = entry.1
      · have hlookup : rest.lookup name = none := by
          by_contra hbound
          obtain ⟨value, hvalue⟩ := Option.ne_none_iff_exists'.1 hbound
          exact String.lt_irrefl _ (hname ▸ hfirst _ ((lookup_eq_some_iff hrest).1 hvalue))
        rw [if_pos hname, if_pos hname, hlookup]
        rfl
      · rw [if_neg hname, if_neg hname]

/-- A map is the map of its bindings. -/
theorem ofList_entries (map : NameMap α) : ofList map.entries = map :=
  ext_get? fun name => by
    rw [ofList, get?_foldl_insert map.ascending, get?_empty, Option.or_none]
    rfl

/-- Insertions of different names can trade places. -/
theorem insert_comm (map : NameMap α) {a b : String} (hne : a ≠ b) (x y : α) :
    (map.insert a x).insert b y = (map.insert b y).insert a x :=
  ext_get? fun name => by
    rw [get?_insert, get?_insert, get?_insert, get?_insert]
    by_cases hname : name = b
    · rw [if_pos hname, if_neg fun h => hne (h.symm.trans hname), if_pos hname]
    · rw [if_neg hname, if_neg hname]

/-- A map is the map of its bindings, in whatever order they are listed. -/
theorem ofList_of_perm {map : NameMap α} {entries : List (String × α)}
    (h : entries.Perm map.entries) : ofList entries = map := by
  have hcomm : ∀ x ∈ entries, ∀ y ∈ entries, ∀ built : NameMap α,
      (built.insert x.1 x.2).insert y.1 y.2 = (built.insert y.1 y.2).insert x.1 x.2 := by
    intro x hx y hy built
    by_cases hname : x.1 = y.1
    · rw [List.inj_on_of_nodup_map map.nodup_names (h.mem_iff.1 hx) (h.mem_iff.1 hy) hname]
    · exact built.insert_comm hname x.2 y.2
  calc ofList entries = ofList map.entries := h.foldl_eq' hcomm ∅
    _ = map := ofList_entries map

end NameMap

theorem NameSet.mem_names_ofNames {list : List String} {name : String} :
    name ∈ (ofNames list).names ↔ name ∈ list := by
  rw [NameMap.mem_names_iff, ofNames, NameMap.ofList, NameMap.isSome_get?_foldl_insert]
  simp

/-- A set is the set of its names. -/
theorem NameSet.ofNames_names (set : NameSet) : ofNames set.names = set := by
  have hentries : set.names.map (fun name => (name, ())) = set.entries := by
    simp only [NameMap.names, List.map_map]
    exact List.map_id' set.entries
  rw [ofNames, hentries, NameMap.ofList_entries]

end ConceptExpansion
