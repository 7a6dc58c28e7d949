/-
# Precedence as the plain order

The plain order keeps nothing from one step to the next: it looks at all keys
that are not placed yet and takes the least that refers to placed ones only or,
if there is none, the least whose key fields do. As long as the bookkeeping of
`Store.precedence` is right, its list of ready concepts is what the plain order
looks for, so both place the same keys.

The plain order reads nothing but the contents of a store. So the order of
precedence does not depend on identifiers or on the order of admission.
-/

import ConceptExpansion.Proofs.Store.Placement

namespace ConceptExpansion

namespace Store

variable {store : Store}

/-! ## The plain order -/

/-- The stored keys, other than its own, that the concept of a key refers to. -/
def targets (store : Store) (key : Key) : List Key :=
  match store.concept? key with
  | some concept => concept.refs.filter fun target => store.contains target && target ≠ key
  | none => []

/-- The stored keys that the key fields of the concept of a key refer to. -/
def keyTargets (store : Store) (key : Key) : List Key :=
  match store.concept? key with
  | some concept => concept.keyRefs.filter store.contains
  | none => []

/-- The key to place next after those that are placed: the least that refers to
placed ones only or, if there is none, the least that does so in its key
fields. -/
def nextKey? (store : Store) (placed : List Key) : Option Key :=
  let unplaced := store.keys.filter (· ∉ placed)
  match unplaced.find? fun key => store.targets key ⊆ placed with
  | some key => some key
  | none => unplaced.find? fun key => store.keyTargets key ⊆ placed

/-- Places up to `steps` further keys, each time by looking at all of them. -/
def placeKeys (store : Store) : Nat → List Key → List Key
  | 0, placed => placed
  | steps + 1, placed =>
    match store.nextKey? placed with
    | none => placed
    | some key => placeKeys store steps (placed ++ [key])

/-- The order of precedence by keys, with nothing kept from one step to the next. -/
def plainPrecedence (store : Store) : List Key :=
  store.placeKeys store.size []

end Store

/-! ## The two orders agree -/

/-- The placement has placed the concepts of these keys, in this order. -/
def Placement.Lists (store : Store) (placed : List Key) (placement : Placement) : Prop :=
  placement.order.toList.map store.keyOf? = placed.map some

namespace Store

theorem find?_congr {α : Type} {list : List α} {p q : α → Bool}
    (h : ∀ a ∈ list, p a = q a) : list.find? p = list.find? q := by
  rw [← List.head?_filter, List.filter_congr h, List.head?_filter]

section Agreement

variable {store : Store} {placement : Placement} {placed : List Key} {key : Key}
  {id : ConceptId}

theorem mem_placed_iff (hstore : store.WellFormed)
    (hplaced : placement.Lists store placed)
    (hkey : store.idOf? key = some id) : key ∈ placed ↔ id ∈ placement.order.toList := by
  have hmem : key ∈ placed ↔ some key ∈ placement.order.toList.map store.keyOf? := by
    rw [show placement.order.toList.map store.keyOf? = placed.map some from hplaced]
    exact (List.mem_map_of_injective (Option.some_injective _)).symm
  rw [hmem, List.mem_map]
  constructor
  · rintro ⟨other, hother, hkey'⟩
    rw [hstore.keyOf?_eq_some_iff, hkey] at hkey'
    exact Option.some.inj hkey' ▸ hother
  · intro hid
    exact ⟨id, hid, hstore.keyOf?_eq_some_iff.2 hkey⟩

theorem concept?_of_idOf? (hstore : store.WellFormed) {entry : Entry}
    (hget : store.get? id = some entry) (hkey : store.idOf? key = some id) :
    store.concept? key = some entry.concept := by
  obtain ⟨other, hother, hkey'⟩ := hstore.idOf?_eq_some_iff.1 hkey
  obtain rfl : other = entry := Option.some.inj (hother.symm.trans hget)
  exact hstore.concept?_eq_some_iff.2 ⟨id, other, hget, hkey', rfl⟩

theorem contains_iff_idOf? {target : Key} :
    store.contains target = true ↔ ∃ id, store.idOf? target = some id := by
  rw [contains_iff_isSome_idOf?, Option.isSome_iff_exists]

/-- A concept refers to placed keys only if all its dependencies are placed. -/
theorem targets_subset_iff (hstore : store.WellFormed)
    (hplaced : placement.Lists store placed)
    (hkey : store.idOf? key = some id) :
    store.targets key ⊆ placed ↔
      ∀ dependency ∈ store.dependencies id, dependency ∈ placement.order.toList := by
  obtain ⟨entry, hget, hentry⟩ := hstore.idOf?_eq_some_iff.1 hkey
  have htargets : store.targets key =
      entry.concept.refs.filter fun target => store.contains target && target ≠ key := by
    unfold targets
    rw [concept?_of_idOf? hstore hget hkey]
  rw [htargets]
  constructor
  · intro hsubset dependency hdepends
    obtain ⟨hne, other, hother, target, htarget, hid⟩ := mem_dependencies.1 hdepends
    obtain rfl : other = entry := Option.some.inj (hother.symm.trans hget)
    apply (mem_placed_iff hstore hplaced hid).1
    apply hsubset
    rw [List.mem_filter, Bool.and_eq_true, contains_iff_idOf?, decide_eq_true_eq]
    refine ⟨htarget, ⟨dependency, hid⟩, fun heq => hne ?_⟩
    rw [heq, hkey] at hid
    exact (Option.some.inj hid).symm
  · intro hall target htarget
    rw [List.mem_filter, Bool.and_eq_true, contains_iff_idOf?, decide_eq_true_eq] at htarget
    obtain ⟨htarget, ⟨dependency, hid⟩, hne⟩ := htarget
    apply (mem_placed_iff hstore hplaced hid).2
    apply hall
    refine mem_dependencies.2 ⟨?_, entry, hget, target, htarget, hid⟩
    rintro rfl
    obtain ⟨other, hother, hkey'⟩ := hstore.idOf?_eq_some_iff.1 hid
    obtain rfl : other = entry := Option.some.inj (hother.symm.trans hget)
    exact hne (hkey'.symm.trans hentry)

/-- The key fields of a concept refer to placed keys only if the concepts that they
refer to are placed. -/
theorem keyTargets_subset_iff (hstore : store.WellFormed)
    (hplaced : placement.Lists store placed)
    (hkey : store.idOf? key = some id) :
    store.keyTargets key ⊆ placed ↔
      ∀ dependency ∈ store.keyDependencies id, dependency ∈ placement.order.toList := by
  obtain ⟨entry, hget, -⟩ := hstore.idOf?_eq_some_iff.1 hkey
  have htargets : store.keyTargets key = entry.concept.keyRefs.filter store.contains := by
    unfold keyTargets
    rw [concept?_of_idOf? hstore hget hkey]
  have hdependencies : store.keyDependencies id =
      entry.concept.keyRefs.filterMap store.idOf? := by
    unfold keyDependencies
    rw [hget]
  rw [htargets, hdependencies]
  constructor
  · intro hsubset dependency hdepends
    obtain ⟨target, htarget, hid⟩ := List.mem_filterMap.1 hdepends
    apply (mem_placed_iff hstore hplaced hid).1
    exact hsubset (List.mem_filter.2 ⟨htarget, contains_iff_idOf?.2 ⟨dependency, hid⟩⟩)
  · intro hall target htarget
    obtain ⟨htarget, hcontains⟩ := List.mem_filter.1 htarget
    obtain ⟨dependency, hid⟩ := contains_iff_idOf?.1 hcontains
    apply (mem_placed_iff hstore hplaced hid).2
    exact hall dependency (List.mem_filterMap.2 ⟨target, htarget, hid⟩)

/-- The keys that are left are those of the unplaced concepts. -/
theorem keys_unplaced (hstore : store.WellFormed) (h : placement.Tracks store [])
    (hplaced : placement.Lists store placed) :
    store.keys.filter (· ∉ placed) = placement.unplaced.map (·.1) := by
  have hkeys : store.keys = store.byKey.toList.map (·.1) :=
    Std.TreeMap.map_fst_toList_eq_keys.symm
  rw [hkeys, List.filter_map, h.unplaced]
  congr 1
  apply List.filter_congr
  rintro ⟨key, id⟩ hentry
  have hmem := mem_placed_iff hstore hplaced (mem_byKey.1 hentry)
  rw [← h.isPlaced] at hmem
  simp [hmem]

/-- The concepts that are ready are those that refer to placed ones only. -/
theorem ready_eq (hstore : store.WellFormed) (h : placement.Tracks store [])
    (hplaced : placement.Lists store placed) :
    placement.ready =
      placement.unplaced.filter fun entry => store.targets entry.1 ⊆ placed := by
  apply eq_of_keys_ascend Prod.fst h.ascend
  · rw [h.unplaced]
    exact ((keysAscend_byKey store).filter _).filter _
  · rintro ⟨key, id⟩
    rw [h.mem_ready, h.unplaced, List.mem_filter, List.mem_filter, mem_byKey, and_assoc]
    refine and_congr_right fun hkey => ?_
    obtain ⟨entry, hget, -⟩ := hstore.idOf?_eq_some_iff.1 hkey
    rw [h.waiting id (hstore.mem_ids.2 ⟨entry, hget⟩), decide_eq_true_eq,
      targets_subset_iff hstore hplaced hkey, List.map_nil, if_neg List.not_mem_nil, Nat.add_zero,
      Option.some.injEq, Placement.pending, List.countP_eq_zero, Bool.not_eq_true']
    simp only [Bool.not_eq_true', Bool.not_eq_false, h.isPlaced]

/-- Both orders go on with the same key. -/
theorem keyOf?_nextPlaced? (hstore : store.WellFormed) (h : placement.Tracks store [])
    (hplaced : placement.Lists store placed) :
    (store.nextPlaced? placement).map store.keyOf? = (store.nextKey? placed).map some := by
  have hkeyOf : ∀ {entry : Key × ConceptId}, entry ∈ placement.unplaced →
      store.keyOf? entry.2 = some entry.1 := by
    intro entry hentry
    rw [h.unplaced, List.mem_filter, mem_byKey] at hentry
    exact hstore.keyOf?_eq_some_iff.2 hentry.1
  have hready : placement.ready.head? =
      placement.unplaced.find? fun entry => store.targets entry.1 ⊆ placed := by
    rw [ready_eq hstore h hplaced, List.head?_filter]
  have hkeyFields : (placement.unplaced.find? fun entry =>
        (store.keyDependencies entry.2).all placement.isPlaced) =
      placement.unplaced.find? fun entry => store.keyTargets entry.1 ⊆ placed := by
    apply find?_congr
    intro entry hentry
    rw [h.unplaced, List.mem_filter, mem_byKey] at hentry
    rw [Bool.eq_iff_iff, List.all_eq_true, decide_eq_true_eq,
      keyTargets_subset_iff hstore hplaced hentry.1]
    simp only [h.isPlaced]
  unfold nextKey? nextPlaced?
  dsimp only
  rw [keys_unplaced hstore h hplaced, List.find?_map, List.find?_map]
  simp only [Function.comp_def]
  rw [← hready, ← hkeyFields]
  cases hcases : placement.ready with
  | cons entry rest =>
      have hmem : entry ∈ placement.unplaced := by
        apply List.mem_of_find?_eq_some (p := fun entry => store.targets entry.1 ⊆ placed)
        rw [← hready, hcases]
        rfl
      simp [hkeyOf hmem]
  | nil =>
      cases hfind : placement.unplaced.find? fun entry =>
          (store.keyDependencies entry.2).all placement.isPlaced with
      | none => simp
      | some entry => simp [hkeyOf (List.mem_of_find?_eq_some hfind)]

/-- The concept to place next is stored and has not been placed. -/
theorem unplaced_of_nextPlaced? (hstore : store.WellFormed) (h : placement.Tracks store [])
    (hid : store.nextPlaced? placement = some id) :
    id ∈ store.ids ∧ placement.isPlaced id = false := by
  have hstored : ∀ {key : Key}, store.idOf? key = some id → id ∈ store.ids := by
    intro key hkey
    obtain ⟨entry, hget, -⟩ := hstore.idOf?_eq_some_iff.1 hkey
    exact hstore.mem_ids.2 ⟨entry, hget⟩
  unfold nextPlaced? at hid
  split at hid
  · next entry rest hready =>
      cases hid
      have hmem : (entry.1, entry.2) ∈ placement.ready := hready ▸ List.mem_cons_self
      obtain ⟨hkey, hnew, -⟩ := (h.mem_ready _ _).1 hmem
      exact ⟨hstored hkey, hnew⟩
  · obtain ⟨entry, hfind, rfl⟩ := Option.map_eq_some_iff.1 hid
    have hmem := List.mem_of_find?_eq_some hfind
    rw [h.unplaced, List.mem_filter, mem_byKey, Bool.not_eq_true'] at hmem
    exact ⟨hstored hmem.1, hmem.2⟩

/-- Whatever has been placed so far, both orders place the same keys from there on. -/
theorem lists_placeSteps (hstore : store.WellFormed) (h : placement.Tracks store [])
    (hplaced : placement.Lists store placed) (steps : Nat) :
    (store.placeSteps store.dependents steps placement).Lists store
      (store.placeKeys steps placed) := by
  induction steps generalizing placement placed with
  | zero => exact hplaced
  | succ steps ih =>
      have hnext := keyOf?_nextPlaced? hstore h hplaced
      unfold placeSteps placeKeys
      cases hid : store.nextPlaced? placement with
      | none =>
          rw [hid] at hnext
          rw [Option.map_eq_none_iff.1 hnext.symm]
          exact hplaced
      | some id =>
          rw [hid] at hnext
          obtain ⟨key, hkey, hkeyOf⟩ := Option.map_eq_some_iff.1 hnext.symm
          obtain ⟨hstored, hnew⟩ := unplaced_of_nextPlaced? hstore h hid
          have hlists : (placement.place id (store.dependents.getD id.index [])).Lists store
              (placed ++ [key]) := by
            show List.map _ _ = _
            rw [Placement.order_place, Array.toList_push, List.map_append, List.map_append,
              show placement.order.toList.map store.keyOf? = placed.map some from hplaced,
              List.map_singleton, List.map_singleton, hkeyOf]
          rw [hkey]
          exact ih (h.place hstore hstored hnew) hlists

/-- The order of precedence lists the keys of the plain order. -/
theorem keyOf?_precedence (hstore : store.WellFormed) :
    store.precedence.map store.keyOf? = store.plainPrecedence.map some :=
  have hstart : store.startPlacement.Lists store [] := rfl
  lists_placeSteps hstore (tracks_startPlacement hstore) hstart store.size

end Agreement

/-! ## Precedence depends on the contents alone -/

namespace SameContents

variable {a b : Store}

theorem keys (h : SameContents a b) (ha : a.WellFormed) (hb : b.WellFormed) :
    a.keys = b.keys := by
  have hascend : ∀ store : Store, store.keys.Pairwise fun a b => a.compare b = .lt :=
    fun _ => Std.TreeMap.ordered_keys
  apply eq_of_keys_ascend (fun key => key) (hascend a) (hascend b)
  intro key
  rw [ha.mem_keys, hb.mem_keys, ← ha.contains_iff, ← hb.contains_iff, h.contains ha hb]

theorem size (h : SameContents a b) (ha : a.WellFormed) (hb : b.WellFormed) :
    a.size = b.size := by
  rw [← ha.length_keys, ← hb.length_keys, h.keys ha hb]

/-- Stores with the same contents list the same keys, though not in the same
order. -/
theorem keyOf?_perm (h : SameContents a b) (ha : a.WellFormed) (hb : b.WellFormed) :
    (a.ids.map a.keyOf?).Perm (b.ids.map b.keyOf?) := by
  have hlisted : ∀ {store : Store}, store.WellFormed →
      (store.ids.map store.keyOf?).Perm (store.keys.map some) := by
    intro store hstore
    rw [hstore.keyOf?_ids]
    exact (hstore.keys_perm.map some).symm
  apply (hlisted ha).trans
  rw [h.keys ha hb]
  exact (hlisted hb).symm

theorem plainPrecedence (h : SameContents a b) (ha : a.WellFormed) (hb : b.WellFormed) :
    a.plainPrecedence = b.plainPrecedence := by
  have hcontains : a.contains = b.contains := funext (h.contains ha hb)
  have htargets : a.targets = b.targets := by
    funext key
    unfold targets
    rw [h.concept?, hcontains]
  have hkeyTargets : a.keyTargets = b.keyTargets := by
    funext key
    unfold keyTargets
    rw [h.concept?, hcontains]
  have hnext : a.nextKey? = b.nextKey? := by
    funext placed
    unfold nextKey?
    rw [h.keys ha hb, htargets, hkeyTargets]
  have hplace : ∀ steps placed, a.placeKeys steps placed = b.placeKeys steps placed := by
    intro steps
    induction steps with
    | zero => exact fun _ => rfl
    | succ steps ih =>
        intro placed
        unfold placeKeys
        rw [hnext]
        simp only [ih]
  unfold Store.plainPrecedence
  rw [h.size ha hb, hplace]

/-- Stores with the same contents have the same keys in the order of precedence. -/
theorem keyOf?_precedence (h : SameContents a b) (ha : a.WellFormed) (hb : b.WellFormed) :
    a.precedence.map a.keyOf? = b.precedence.map b.keyOf? := by
  rw [Store.keyOf?_precedence ha, Store.keyOf?_precedence hb, h.plainPrecedence ha hb]

end SameContents

end Store

end ConceptExpansion
