/-
# Describing a concept once more

Cumulative values form a semilattice under `Value.union`. A union is written as a set, so
it is determined by what it contributes, and all laws of sets hold of it; a missing value
contributes nothing and changes no value that is written as a set. Payloads inherit this.
A payload extends another if it says all that the other says. Where a stored payload and a
further description have the same plain attributes, merging never fails, what it arrives at
is the least payload that extends both, and nothing changes exactly if the description has
neither an attribute nor an item that is not stored. An attribute without items is not an
absent one, so it counts as an addition.
-/

import Mathlib
import ConceptExpansion.Proofs.Store.Payload

namespace ConceptExpansion

/-! ## Values -/

namespace Value

/-- What a value contributes to a cumulative attribute: a list each of its items, a missing
value nothing, and any other value itself. -/
inductive Contributes : Value → Value → Prop
  | item {items : List Value} {x : Value} (h : x ∈ items) : Contributes (.list items) x
  | single {value : Value} (hnull : value ≠ .null) (hlist : ∀ items, value ≠ .list items) :
      Contributes value value

theorem mem_contributions_iff {value x : Value} : x ∈ value.contributions ↔ value.Contributes x := by
  constructor
  · intro h
    cases value with
    | null => cases h
    | list items => exact .item h
    | _ =>
        obtain rfl := List.mem_singleton.1 h
        exact .single nofun nofun
  · intro h
    cases h with
    | item h => exact h
    | single hnull hlist =>
        cases value with
        | null => exact absurd rfl hnull
        | list items => exact absurd rfl (hlist items)
        | _ => exact List.mem_singleton_self _

theorem exists_items_union (a b : Value) :
    ∃ items, a.union b = .list items ∧ Ascending items ∧
      ∀ x, x ∈ items ↔ a.Contributes x ∨ b.Contributes x := by
  refine ⟨_, rfl, ascending_canonical _, fun x => ?_⟩
  rw [mem_canonical, List.mem_append, mem_contributions_iff, mem_contributions_iff]

theorem union_comm (a b : Value) : a.union b = b.union a := by
  refine (isSet_union a b).eq_of_contributions (isSet_union b a) fun x => ?_
  rw [mem_contributions_union, mem_contributions_union, or_comm]

theorem union_assoc (a b c : Value) : (a.union b).union c = a.union (b.union c) := by
  refine (isSet_union _ c).eq_of_contributions (isSet_union a _) fun x => ?_
  simp only [mem_contributions_union, or_assoc]

/-- A set absorbs what it contains. -/
theorem IsSet.union_eq_self {a b : Value} (ha : a.IsSet)
    (h : ∀ x ∈ b.contributions, x ∈ a.contributions) : a.union b = a := by
  refine (isSet_union a b).eq_of_contributions ha fun x => ?_
  rw [mem_contributions_union]
  exact ⟨fun hx => hx.elim id (h x), .inl⟩

theorem IsSet.union_self {a : Value} (ha : a.IsSet) : a.union a = a :=
  ha.union_eq_self fun _ => id

theorem IsSet.union_null {a : Value} (ha : a.IsSet) : a.union null = a :=
  ha.union_eq_self nofun

end Value

/-! ## Payloads -/

namespace KindDef

open Value

variable {kind : KindDef} {a b : Attributes} {name : String}

/-- The attribute of this name contributes `x`. -/
def HasItem (payload : Attributes) (name : String) (x : Value) : Prop :=
  ∃ value, payload.get? name = some value ∧ value.Contributes x

theorem mem_contributed_iff {x : Value} : x ∈ contributed (a.get? name) ↔ HasItem a name x := by
  rw [HasItem]
  cases a.get? name with
  | none => simp
  | some value => simp [mem_contributions_iff]

/-- `large` says all that `small` says: it has every attribute of `small`, with the same value
if it is a plain one and with every item if it is a cumulative one. -/
structure Extends (kind : KindDef) (large small : Attributes) : Prop where
  plain : ∀ name value, kind.isCumulative name = false →
    small.get? name = some value → large.get? name = some value
  present : ∀ name, (small.get? name).isSome → (large.get? name).isSome
  items : ∀ name x, kind.isCumulative name = true → HasItem small name x → HasItem large name x

/-- Payloads whose cumulative attributes are sets are equal if either extends the other. -/
theorem Extends.antisymm (ha : kind.Normal a) (hb : kind.Normal b) (hab : kind.Extends a b)
    (hba : kind.Extends b a) : a = b := by
  refine payload_ext kind (fun name hname => ?_) fun name hname => ?_
  · exact Option.ext fun value => ⟨hba.plain name value hname, hab.plain name value hname⟩
  · refine eq_of_contributed (ha name hname) (hb name hname) ?_ fun x => ?_
    · exact Bool.eq_iff_iff.2 ⟨hba.present name, hab.present name⟩
    · rw [mem_contributed_iff, mem_contributed_iff]
      exact ⟨hba.items name x hname, hab.items name x hname⟩

/-- The least payload that extends both, its cumulative attributes written as sets. -/
structure IsLeastExtension (kind : KindDef) (a b least : Attributes) : Prop where
  normal : kind.Normal least
  left : kind.Extends least a
  right : kind.Extends least b
  le : ∀ other, kind.Extends other a → kind.Extends other b → kind.Extends other least

theorem IsLeastExtension.unique {least other : Attributes}
    (hleast : kind.IsLeastExtension a b least) (hother : kind.IsLeastExtension a b other) :
    other = least :=
  Extends.antisymm hother.normal hleast.normal (hleast.le other hother.left hother.right)
    (hother.le least hleast.left hleast.right)

/-- An attribute, or an item of a cumulative attribute, that `incoming` has and `existing`
has not. -/
inductive Adds (kind : KindDef) (existing incoming : Attributes) : Prop
  | newAttribute (name : String) (hincoming : (incoming.get? name).isSome)
      (hexisting : existing.get? name = none)
  | newItem (name : String) (x : Value) (hcumulative : kind.isCumulative name = true)
      (hincoming : HasItem incoming name x) (hexisting : ¬ HasItem existing name x)

/-- The payloads have the same attributes apart from the cumulative ones. -/
def AgreePlainly (kind : KindDef) (a b : Attributes) : Prop :=
  ∀ name, kind.isCumulative name = false → a.get? name = b.get? name

theorem isSome_get?_merge (h : kind.AgreePlainly a b) (name : String) :
    ((kind.merge a b).get? name).isSome = ((a.get? name).isSome || (b.get? name).isSome) := by
  cases hname : kind.isCumulative name with
  | true => rw [get?_merge_of_cumulative kind a b hname, isSome_unite?]
  | false => rw [get?_merge_of_not_cumulative kind a b hname, ← h name hname, Bool.or_self]

theorem hasItem_merge {x : Value} (hname : kind.isCumulative name = true) :
    HasItem (kind.merge a b) name x ↔ HasItem a name x ∨ HasItem b name x := by
  simp only [← mem_contributed_iff, get?_merge_of_cumulative kind a b hname,
    mem_contributed_unite?]

theorem extends_merge_left (h : kind.AgreePlainly a b) : kind.Extends (kind.merge a b) a where
  plain name value hname hvalue := by
    rw [get?_merge_of_not_cumulative kind a b hname, hvalue]
  present name hsome := by
    rw [isSome_get?_merge h, hsome, Bool.true_or]
  items name x hname hx := (hasItem_merge hname).2 (.inl hx)

theorem extends_merge_right (h : kind.AgreePlainly a b) : kind.Extends (kind.merge a b) b where
  plain name value hname hvalue := by
    rw [get?_merge_of_not_cumulative kind a b hname, h name hname, hvalue]
  present name hsome := by
    rw [isSome_get?_merge h, hsome, Bool.or_true]
  items name x hname hx := (hasItem_merge hname).2 (.inr hx)

/-- Merging says nothing that neither side says. -/
theorem Extends.merge {other : Attributes} (h : kind.AgreePlainly a b)
    (ha : kind.Extends other a) (hb : kind.Extends other b) :
    kind.Extends other (kind.merge a b) where
  plain name value hname hvalue := by
    rw [get?_merge_of_not_cumulative kind a b hname] at hvalue
    exact ha.plain name value hname hvalue
  present name hsome := by
    rw [isSome_get?_merge h, Bool.or_eq_true] at hsome
    exact hsome.elim (ha.present name) (hb.present name)
  items name x hname hx :=
    ((hasItem_merge hname).1 hx).elim (ha.items name x hname) (hb.items name x hname)

theorem isLeastExtension_merge (h : kind.AgreePlainly a b) :
    kind.IsLeastExtension a b (kind.merge a b) where
  normal := normal_merge a b
  left := extends_merge_left h
  right := extends_merge_right h
  le _ ha hb := ha.merge h hb

/-- Merging changes nothing exactly if the description adds nothing. -/
theorem merge_eq_self_iff_not_adds (h : kind.AgreePlainly a b) (hnormal : kind.Normal a) :
    kind.merge a b = a ↔ ¬ kind.Adds a b := by
  rw [merge_eq_self_iff hnormal]
  constructor
  · intro habsorbs hadds
    cases hadds with
    | newAttribute name hb ha =>
        cases hname : kind.isCumulative name with
        | true =>
            have hsome := (habsorbs name hname).1 hb
            rw [ha] at hsome
            cases hsome
        | false =>
            rw [← h name hname, ha] at hb
            cases hb
    | newItem name x hname hb ha =>
        have hx := (habsorbs name hname).2 x (mem_contributed_iff.2 hb)
        exact ha (mem_contributed_iff.1 hx)
  · intro hnot name hname
    refine ⟨fun hb => ?_, fun x hb => ?_⟩
    · by_contra ha
      exact hnot (.newAttribute name hb (Option.not_isSome_iff_eq_none.1 ha))
    · by_contra ha
      exact hnot (.newItem name x hname (mem_contributed_iff.1 hb) (mt mem_contributed_iff.2 ha))

end KindDef

/-- A description that agrees on the plain attributes is never refused. -/
theorem Store.reinsert_of_agreePlainly (store : Store) {kind : KindDef} {entry : Entry}
    {concept : Concept} (origin : Origin)
    (h : kind.AgreePlainly entry.concept.payload concept.payload) :
    store.reinsert kind entry concept origin =
      if kind.merge entry.concept.payload concept.payload = entry.concept.payload then
        .ok (.alreadyPresent entry.id, store)
      else
        .ok (.merged entry.id,
          store.setPayload entry.id (kind.merge entry.concept.payload concept.payload)) := by
  rw [reinsert, (kind.disagreement?_eq_none_iff _ _).2 h]

/-- Cumulative values form a semilattice: a union is a strictly ascending list of exactly the
items that either value contributes, and uniting is commutative, associative, idempotent on
its results, and has the missing value as identity on them. So a description that agrees with
a stored payload on the plain attributes is never refused. Merging arrives at the least
payload that extends both, and the answer is that the concept is present already exactly if
the description adds neither an attribute nor an item. -/
theorem cumulative_semilattice :
    (∀ a b : Value, ∃ items, a.union b = .list items ∧ Value.Ascending items ∧
      ∀ x, x ∈ items ↔ a.Contributes x ∨ b.Contributes x) ∧
    (∀ a b : Value, a.union b = b.union a) ∧
    (∀ a b c : Value, (a.union b).union c = a.union (b.union c)) ∧
    (∀ a b : Value, (a.union b).union (a.union b) = a.union b) ∧
    (∀ a b : Value, (a.union b).union .null = a.union b ∧ Value.null.union (a.union b) = a.union b) ∧
    ∀ (kind : KindDef) (store : Store) (entry : Entry) (concept : Concept) (origin : Origin),
      kind.AgreePlainly entry.concept.payload concept.payload →
      kind.Normal entry.concept.payload →
      ∃ merged, kind.IsLeastExtension entry.concept.payload concept.payload merged ∧
        (∀ other, kind.IsLeastExtension entry.concept.payload concept.payload other →
          other = merged) ∧
        (merged = entry.concept.payload ↔ ¬ kind.Adds entry.concept.payload concept.payload) ∧
        store.reinsert kind entry concept origin =
          if merged = entry.concept.payload then .ok (.alreadyPresent entry.id, store)
          else .ok (.merged entry.id, store.setPayload entry.id merged) := by
  refine ⟨Value.exists_items_union, Value.union_comm, Value.union_assoc,
    fun a b => (Value.isSet_union a b).union_self, fun a b => ?_, ?_⟩
  · have hnull := (Value.isSet_union a b).union_null
    exact ⟨hnull, (Value.union_comm _ _).trans hnull⟩
  · intro kind store entry concept origin hagree hnormal
    have hleast := KindDef.isLeastExtension_merge hagree
    exact ⟨_, hleast, fun _ => hleast.unique,
      KindDef.merge_eq_self_iff_not_adds hagree hnormal,
      store.reinsert_of_agreePlainly origin hagree⟩

/-! ## A pantry -/

namespace Pantry

/-- Shelves, on which jars and losses add up. -/
def shelf : KindDef where
  name := "Shelf"
  keyFields := ["n"]
  cumulative := .ofNames ["jars", "lost"]

/-- A shelf in the attic. -/
def describe (attributes : List (String × Value)) : Concept where
  kind := "Shelf"
  fields := [.int 1]
  payload := .ofList (("room", .string "attic") :: attributes)

/-- The shelf as it is stored. A missing value is one of the jars. -/
def entry : Entry where
  id := ⟨0, by decide⟩
  key := ⟨"Shelf", [.int 1]⟩
  concept := describe [("jars", .list [.null, .int 2])]
  origin := .seed 0

/-- A description with a list among the jars, with jars that are stored already, and with
losses of which there are none. -/
def described : Concept :=
  describe [("jars", .list [.list [.int 1, .null], .int 2, .null, .int 2]), ("lost", .null)]

def store : Store :=
  (Store.empty (.ofKinds [shelf])).push entry

theorem agreePlainly : shelf.AgreePlainly entry.concept.payload described.payload := by
  intro name hname
  have hjars : name ≠ "jars" := by
    rintro rfl
    exact absurd hname (by decide)
  have hlost : name ≠ "lost" := by
    rintro rfl
    exact absurd hname (by decide)
  simp [entry, described, describe, NameMap.ofList, NameMap.get?_insert, hjars, hlost]

theorem normal : shelf.Normal entry.concept.payload := by
  have hnormalize : shelf.normalize entry.concept.payload = entry.concept.payload := by cbv
  rw [← hnormalize]
  exact KindDef.normal_normalize _

/-- What is new of the description is entered, the losses as an attribute without items. -/
theorem shelf_described :
    shelf.AgreePlainly entry.concept.payload described.payload ∧
    shelf.Normal entry.concept.payload ∧
    store.reinsert shelf entry described (.seed 1) = .ok (.merged ⟨0, by decide⟩,
      store.setPayload ⟨0, by decide⟩ (.ofList
        [("jars", .list [.null, .int 2, .list [.int 1, .null]]), ("lost", .list []),
          ("room", .string "attic")])) := by
  obtain ⟨-, -, -, -, -, hdescribe⟩ := cumulative_semilattice
  obtain ⟨merged, -, hunique, hsame, hanswer⟩ :=
    hdescribe shelf store entry described (.seed 1) agreePlainly normal
  refine ⟨agreePlainly, normal, ?_⟩
  have hmerge : shelf.merge entry.concept.payload described.payload =
      .ofList [("jars", .list [.null, .int 2, .list [.int 1, .null]]), ("lost", .list []),
        ("room", .string "attic")] := by cbv
  have hmerged := hunique _ (KindDef.isLeastExtension_merge agreePlainly)
  have hadds : shelf.Adds entry.concept.payload described.payload :=
    .newAttribute "lost" (by decide) (by decide)
  rw [if_neg fun h => hsame.1 h hadds, ← hmerged, hmerge] at hanswer
  exact hanswer

end Pantry

end ConceptExpansion
