/-
# Payloads, attribute by attribute

What the payload operations of admission do to a single attribute. A cumulative
attribute is present in a merged payload as soon as either side has it, and
then holds the union of the two sides; any other attribute is the one that is
stored. From this the order of merging is seen not to matter: repeated
descriptions of one concept may be merged in any order.
-/

import ConceptExpansion.Proofs.NameMap
import ConceptExpansion.Proofs.Value.Canonical

namespace ConceptExpansion

/-! ## Cumulative attributes, present or absent -/

namespace Value

/-- What an attribute contributes; an absent one contributes nothing. -/
def contributed (value? : Option Value) : List Value :=
  (value?.getD null).contributions

/-- The union of two attributes, absent only if both are. -/
def unite? : Option Value → Option Value → Option Value
  | none, none => none
  | a, b => some ((a.getD null).union (b.getD null))

@[simp]
theorem contributed_none : contributed none = [] := rfl

@[simp]
theorem contributed_some (value : Value) : contributed (some value) = value.contributions := rfl

@[simp]
theorem isSome_unite? (a b : Option Value) : (unite? a b).isSome = (a.isSome || b.isSome) := by
  cases a <;> cases b <;> rfl

@[simp]
theorem mem_contributed_unite? {x : Value} (a b : Option Value) :
    x ∈ contributed (unite? a b) ↔ x ∈ contributed a ∨ x ∈ contributed b := by
  cases a <;> cases b <;> simp [unite?, contributed, mem_contributions_union]

theorem isSet_of_mem_unite? {a b : Option Value} : ∀ value ∈ unite? a b, value.IsSet := by
  intro value hvalue
  cases a <;> cases b <;>
    simp only [unite?, Option.mem_def, reduceCtorEq, Option.some.injEq] at hvalue
  all_goals
    subst hvalue
    exact isSet_union _ _

/-- Attributes that are sets are determined by their presence and by what they
contribute. -/
theorem eq_of_contributed {a b : Option Value} (ha : ∀ value ∈ a, value.IsSet)
    (hb : ∀ value ∈ b, value.IsSet) (hsome : a.isSome = b.isSome)
    (hmem : ∀ x, x ∈ contributed a ↔ x ∈ contributed b) : a = b := by
  cases a with
  | none =>
      cases b with
      | none => rfl
      | some _ => simp at hsome
  | some v =>
      cases b with
      | none => simp at hsome
      | some w => rw [(ha v rfl).eq_of_contributions (hb w rfl) hmem]

theorem unite?_right_comm (e a b : Option Value) :
    unite? (unite? e a) b = unite? (unite? e b) a := by
  refine eq_of_contributed isSet_of_mem_unite? isSet_of_mem_unite? ?_ fun x => ?_
  · simp [Bool.or_assoc, Bool.or_comm a.isSome]
  · simp only [mem_contributed_unite?]
    exact or_right_comm

theorem unite?_comm (a b : Option Value) : unite? a b = unite? b a := by
  refine eq_of_contributed isSet_of_mem_unite? isSet_of_mem_unite? ?_ fun x => ?_
  · simp [Bool.or_comm]
  · simp only [mem_contributed_unite?, or_comm]

/-- If uniting with `a` and then with `b` changes nothing, uniting with `a`
alone does not either. -/
theorem unite?_eq_self_of_unite?_unite?_eq {e a b : Option Value}
    (h : unite? (unite? e a) b = e) : unite? e a = e := by
  refine eq_of_contributed isSet_of_mem_unite? (h ▸ isSet_of_mem_unite?) ?_ fun x => ?_
  · have hsome := congrArg Option.isSome h
    simp only [isSome_unite?] at hsome ⊢
    cases e <;> cases a <;> simp_all
  · have hmem : x ∈ contributed (unite? (unite? e a) b) ↔ x ∈ contributed e := by rw [h]
    simp only [mem_contributed_unite?] at hmem ⊢
    exact ⟨fun hx => hmem.1 (.inl hx), .inl⟩

/-- An attribute that is a set absorbs exactly what it contains. -/
theorem unite?_eq_self_iff {e a : Option Value} (he : ∀ value ∈ e, value.IsSet) :
    unite? e a = e ↔
      (a.isSome → e.isSome) ∧ ∀ x ∈ contributed a, x ∈ contributed e := by
  constructor
  · intro h
    constructor
    · intro ha
      rw [← h, isSome_unite?, ha, Bool.or_true]
    · intro x hx
      rw [← h, mem_contributed_unite?]
      exact .inr hx
  · rintro ⟨hsome, hsub⟩
    refine eq_of_contributed isSet_of_mem_unite? he ?_ fun x => ?_
    · cases e <;> cases a <;> simp_all
    · rw [mem_contributed_unite?]
      exact ⟨fun hx => hx.elim id (hsub x), .inl⟩

end Value

/-! ## The operations of a kind on payloads -/

namespace KindDef

variable (kind : KindDef)

/-- Every cumulative attribute of the payload is written as a set. -/
def Normal (payload : Attributes) : Prop :=
  ∀ name, kind.isCumulative name = true → ∀ value ∈ payload.get? name, value.IsSet

theorem mem_attributesOfBoth {a b : Attributes} {name : String} :
    name ∈ attributesOfBoth a b ↔ (a.get? name).isSome ∨ (b.get? name).isSome := by
  rw [attributesOfBoth, NameSet.mem_names_ofNames, List.mem_append, NameMap.mem_names_iff,
    NameMap.mem_names_iff]

theorem get?_normalize_of_cumulative (payload : Attributes) {name : String}
    (hcumulative : kind.isCumulative name = true) :
    (kind.normalize payload).get? name = Value.unite? none (payload.get? name) := by
  rw [normalize, NameMap.get?_mapValues]
  cases payload.get? name with
  | none => rfl
  | some value => simp [hcumulative, Value.unite?]

theorem get?_normalize_of_not_cumulative (payload : Attributes) {name : String}
    (hcumulative : kind.isCumulative name = false) :
    (kind.normalize payload).get? name = payload.get? name := by
  rw [normalize, NameMap.get?_mapValues]
  cases payload.get? name <;> simp [hcumulative]

/-- A fold that enters a computed value for every cumulative name of a list. -/
theorem get?_foldl_cumulative (value : String → Value) (names : List String)
    (payload : Attributes) (name : String) :
    (names.foldl (fun merged name =>
      if kind.isCumulative name then merged.insert name (value name) else merged)
        payload).get? name =
      if kind.isCumulative name = true ∧ name ∈ names then some (value name)
      else payload.get? name := by
  induction names generalizing payload with
  | nil => simp
  | cons first rest ih =>
      rw [List.foldl_cons, ih]
      by_cases hname : name = first
      · subst hname
        cases kind.isCumulative name <;> simp [NameMap.get?_insert]
      · have hskip : NameMap.get? (if kind.isCumulative first then
            payload.insert first (value first) else payload) name = payload.get? name := by
          split <;> simp [NameMap.get?_insert, hname]
        rw [hskip]
        simp [hname]

theorem get?_merge_of_cumulative (existing incoming : Attributes) {name : String}
    (hcumulative : kind.isCumulative name = true) :
    (kind.merge existing incoming).get? name =
      Value.unite? (existing.get? name) (incoming.get? name) := by
  rw [merge, get?_foldl_cumulative kind fun name =>
    ((existing.get? name).getD .null).union ((incoming.get? name).getD .null)]
  simp only [hcumulative, true_and, mem_attributesOfBoth]
  cases existing.get? name <;> cases incoming.get? name <;> simp [Value.unite?]

theorem get?_merge_of_not_cumulative (existing incoming : Attributes) {name : String}
    (hcumulative : kind.isCumulative name = false) :
    (kind.merge existing incoming).get? name = existing.get? name := by
  rw [merge, get?_foldl_cumulative kind fun name =>
    ((existing.get? name).getD .null).union ((incoming.get? name).getD .null)]
  simp [hcumulative]

/-- Two payloads disagree on no attribute exactly if they have the same
attributes apart from the cumulative ones. -/
theorem disagreement?_eq_none_iff (existing incoming : Attributes) :
    kind.disagreement? existing incoming = none ↔
      ∀ name, kind.isCumulative name = false → existing.get? name = incoming.get? name := by
  rw [disagreement?, List.find?_eq_none]
  constructor
  · intro h name hcumulative
    by_cases hmem : name ∈ attributesOfBoth existing incoming
    · simpa [hcumulative] using h name hmem
    · rw [mem_attributesOfBoth] at hmem
      simp only [not_or, Option.not_isSome_iff_eq_none] at hmem
      rw [hmem.1, hmem.2]
  · intro h name _
    cases hcumulative : kind.isCumulative name with
    | true => simp
    | false => simp [h name hcumulative]

/-- What disagrees with a stored description does not depend on its cumulative
attributes. -/
theorem disagreement?_eq_none_congr {existing existing' : Attributes} (incoming : Attributes)
    (h : ∀ name, kind.isCumulative name = false → existing.get? name = existing'.get? name) :
    kind.disagreement? existing incoming = none ↔
      kind.disagreement? existing' incoming = none := by
  rw [disagreement?_eq_none_iff, disagreement?_eq_none_iff]
  apply forall₂_congr
  intro name hname
  rw [h name hname]

theorem disagreement?_merge_eq_none_iff (existing merged incoming : Attributes) :
    kind.disagreement? (kind.merge existing merged) incoming = none ↔
      kind.disagreement? existing incoming = none :=
  disagreement?_eq_none_congr kind incoming fun _ hname =>
    get?_merge_of_not_cumulative kind existing merged hname

theorem disagreement?_normalize_eq_none_iff (existing incoming : Attributes) :
    kind.disagreement? (kind.normalize existing) incoming = none ↔
      kind.disagreement? existing incoming = none :=
  disagreement?_eq_none_congr kind incoming fun _ hname =>
    get?_normalize_of_not_cumulative kind existing hname

variable {kind}

theorem normal_normalize (payload : Attributes) : kind.Normal (kind.normalize payload) := by
  intro name hcumulative
  rw [get?_normalize_of_cumulative kind payload hcumulative]
  exact Value.isSet_of_mem_unite?

theorem normal_merge (existing incoming : Attributes) :
    kind.Normal (kind.merge existing incoming) := by
  intro name hcumulative
  rw [get?_merge_of_cumulative kind existing incoming hcumulative]
  exact Value.isSet_of_mem_unite?

/-- Payloads of a kind are equal if they agree on every attribute, cumulative or
not. -/
theorem payload_ext (kind : KindDef) {a b : Attributes}
    (hplain : ∀ name, kind.isCumulative name = false → a.get? name = b.get? name)
    (hcumulative : ∀ name, kind.isCumulative name = true → a.get? name = b.get? name) :
    a = b := by
  refine NameMap.ext_get? fun name => ?_
  cases h : kind.isCumulative name with
  | false => exact hplain name h
  | true => exact hcumulative name h

/-- Two further descriptions may be merged in either order. -/
theorem merge_right_comm (existing a b : Attributes) :
    kind.merge (kind.merge existing a) b = kind.merge (kind.merge existing b) a := by
  refine payload_ext kind (fun name h => ?_) fun name h => ?_
  · simp only [get?_merge_of_not_cumulative kind _ _ h]
  · simp only [get?_merge_of_cumulative kind _ _ h, Value.unite?_right_comm]

/-- Either of two descriptions that do not disagree may be stored first. -/
theorem merge_normalize_comm {a b : Attributes}
    (hagree : ∀ name, kind.isCumulative name = false → a.get? name = b.get? name) :
    kind.merge (kind.normalize a) b = kind.merge (kind.normalize b) a := by
  refine payload_ext kind (fun name h => ?_) fun name h => ?_
  · simp only [get?_merge_of_not_cumulative kind _ _ h,
      get?_normalize_of_not_cumulative kind _ h, hagree name h]
  · simp only [get?_merge_of_cumulative kind _ _ h, get?_normalize_of_cumulative kind _ h]
    exact Value.unite?_right_comm none _ _

/-- If merging two descriptions changes nothing, the first of them alone changes
nothing. -/
theorem merge_eq_self_of_merge_merge_eq {existing a b : Attributes}
    (h : kind.merge (kind.merge existing a) b = existing) : kind.merge existing a = existing := by
  refine payload_ext kind (fun name hplain => ?_) fun name hcumulative => ?_
  · exact get?_merge_of_not_cumulative kind _ _ hplain
  · have hname := congrArg (NameMap.get? · name) h
    simp only [get?_merge_of_cumulative kind _ _ hcumulative] at hname ⊢
    exact Value.unite?_eq_self_of_unite?_unite?_eq hname

/-- A normal payload absorbs exactly the descriptions whose cumulative attributes
it contains. -/
theorem merge_eq_self_iff {existing incoming : Attributes} (hnormal : kind.Normal existing) :
    kind.merge existing incoming = existing ↔
      ∀ name, kind.isCumulative name = true →
        ((incoming.get? name).isSome → (existing.get? name).isSome) ∧
          ∀ x ∈ Value.contributed (incoming.get? name),
            x ∈ Value.contributed (existing.get? name) := by
  constructor
  · intro h name hcumulative
    have hname := congrArg (NameMap.get? · name) h
    simp only [get?_merge_of_cumulative kind _ _ hcumulative] at hname
    exact (Value.unite?_eq_self_iff (hnormal name hcumulative)).1 hname
  · intro h
    refine payload_ext kind (fun name hplain => ?_) fun name hcumulative => ?_
    · exact get?_merge_of_not_cumulative kind _ _ hplain
    · rw [get?_merge_of_cumulative kind _ _ hcumulative]
      exact (Value.unite?_eq_self_iff (hnormal name hcumulative)).2 (h name hcumulative)

end KindDef

end ConceptExpansion
