/-
# What drawing up a registry comes to

Declarations of kinds and registrations of rules come in any order, also with the rule
before its kind. What is drawn up depends on two lists that can be read off the steps: the
declarations and the registrations. A name is declared once, by the first that declares it.
The draft closes if every registration is for a declared kind and no kind has two rules of
one name, and otherwise the first registration that does not go with those before it is
reported. The rules of a kind are then those registered for it, in the order of their
registration, whatever was registered in between.
-/

import ConceptExpansion.Rule.Registry
import ConceptExpansion.Proofs.NameMap
import ConceptExpansion.Run.Failure

namespace ConceptExpansion

/-- A step in drawing up a registry. -/
inductive DraftStep where
  /-- Declare a kind. -/
  | declare (kind : KindDef)
  /-- Register a rule for a kind. -/
  | register (kind : String) (rule : Rule)

namespace DraftStep

/-- The declarations among the steps, also those of a name that is taken. -/
def declared : List DraftStep → List KindDef
  | [] => []
  | .declare kind :: rest => kind :: declared rest
  | .register _ _ :: rest => declared rest

/-- The registrations among the steps, each with its kind. -/
def registered : List DraftStep → List (String × Rule)
  | [] => []
  | .declare _ :: rest => registered rest
  | .register kind rule :: rest => (kind, rule) :: registered rest

theorem declared_append (steps after : List DraftStep) :
    declared (steps ++ after) = declared steps ++ declared after := by
  induction steps with
  | nil => rfl
  | cons step rest ih => cases step <;> simp [declared, ih]

theorem registered_append (steps after : List DraftStep) :
    registered (steps ++ after) = registered steps ++ registered after := by
  induction steps with
  | nil => rfl
  | cons step rest ih => cases step <;> simp [registered, ih]

end DraftStep

namespace Draft

open DraftStep

variable {draft : Draft} {schema : Schema} {names : List String} {rules : NameMap (List Rule)}
  {before after : List (String × Rule)} {registration : String × Rule} {error : RegistryError}

/-- Takes one step. A declaration that fails leaves the draft as it is. -/
def take (draft : Draft) : DraftStep → Draft × Except RegistryError Unit
  | .declare kind => draft.addKinds [kind]
  | .register kind rule => (draft.addRule kind rule, .ok ())

/-- The draft that the steps arrive at, from nothing. -/
def drawn (steps : List DraftStep) : Draft :=
  steps.foldl (fun draft step => (draft.take step).1) {}

theorem drawn_concat (steps : List DraftStep) (step : DraftStep) :
    drawn (steps ++ [step]) = ((drawn steps).take step).1 := by
  rw [drawn, List.foldl_append]
  rfl

/-! ## The draft -/

theorem take_declare_of_taken {kind : KindDef} (h : draft.hasKind kind.name = true) :
    draft.take (.declare kind) = (draft, .error (.duplicateKind kind.name)) := by
  simp only [take, addKinds, addKind, h, if_true]

theorem take_declare_of_free {kind : KindDef} (h : draft.hasKind kind.name = false) :
    draft.take (.declare kind) = ({ draft with schema := draft.schema.declare kind }, .ok ()) := by
  simp only [take, addKinds, addKind, h, Bool.false_eq_true, if_false]

theorem registrations_drawn (steps : List DraftStep) :
    (drawn steps).registrations = registered steps := by
  induction steps using List.reverseRecOn with
  | nil => rfl
  | append_singleton steps step ih =>
      rw [drawn_concat, registered_append]
      cases step with
      | register kind rule => exact congrArg (· ++ [(kind, rule)]) ih
      | declare kind =>
          show _ = registered steps ++ []
          rw [List.append_nil, ← ih]
          cases htaken : (drawn steps).hasKind kind.name with
          | true => rw [take_declare_of_taken htaken]
          | false => rw [take_declare_of_free htaken]

/-- The first declaration of a name is the one that counts. -/
theorem schema_drawn (steps : List DraftStep) (name : String) :
    (drawn steps).schema.get? name = (declared steps).find? (·.name = name) := by
  induction steps using List.reverseRecOn with
  | nil => rfl
  | append_singleton steps step ih =>
      rw [drawn_concat, declared_append, List.find?_append]
      cases step with
      | register kind rule =>
          show (drawn steps).schema.get? name = Option.or _ none
          rw [Option.or_none, ih]
      | declare kind =>
          show _ = Option.or _ ([kind].find? (·.name = name))
          rw [← ih]
          by_cases hname : kind.name = name
          · cases hbound : (drawn steps).schema.get? name with
            | some existing =>
                have htaken : (drawn steps).hasKind kind.name = true := by
                  rw [hname]
                  exact Option.isSome_iff_exists.2 ⟨existing, hbound⟩
                rw [take_declare_of_taken htaken, hbound, Option.some_or]
            | none =>
                have hfree : (drawn steps).hasKind kind.name = false := by
                  rw [hname]
                  exact Option.isSome_eq_false_iff.2 (Option.isNone_iff_eq_none.2 hbound)
                rw [take_declare_of_free hfree, Option.none_or, List.find?_singleton,
                  decide_eq_true hname, Schema.get?, Schema.declare, NameMap.get?_insert,
                  if_pos hname.symm]
                rfl
          · have hother : [kind].find? (·.name = name) = none := by simp [hname]
            rw [hother, Option.or_none]
            cases htaken : (drawn steps).hasKind kind.name with
            | true => rw [take_declare_of_taken htaken]
            | false =>
                rw [take_declare_of_free htaken, Schema.get?, Schema.declare,
                  NameMap.get?_insert, if_neg (Ne.symm hname)]
                rfl

theorem hasKind_drawn (steps : List DraftStep) (name : String) :
    (drawn steps).hasKind name = true ↔ name ∈ (declared steps).map (·.name) := by
  have hget : (drawn steps).hasKind name = ((drawn steps).schema.get? name).isSome := rfl
  rw [hget, schema_drawn, List.find?_isSome]
  simp

/-! ## Which registrations fit -/

/-- The registrations make up a registry over the declared names. -/
structure Fitting (names : List String) (registrations : List (String × Rule)) : Prop where
  declared : ∀ registration ∈ registrations, registration.1 ∈ names
  distinct : registrations.Pairwise fun a b => a.1 = b.1 → a.2.name ≠ b.2.name

/-- What is wrong with a registration that comes after others. A kind that was never
declared is noticed first. -/
inductive Faulty (names : List String) (before : List (String × Rule)) :
    String × Rule → RegistryError → Prop
  | unknownKind {kind : String} {rule : Rule} (h : kind ∉ names) :
      Faulty names before (kind, rule) (.unknownKind kind rule.name)
  | duplicateRule {kind : String} {rule earlier : Rule} (hkind : kind ∈ names)
      (hearlier : (kind, earlier) ∈ before) (hname : earlier.name = rule.name) :
      Faulty names before (kind, rule) (.duplicateRule kind rule.name)

theorem Fitting.of_append (h : Fitting names (before ++ after)) : Fitting names before where
  declared registration hmem := h.declared registration (List.mem_append_left _ hmem)
  distinct := (List.pairwise_append.1 h.distinct).1

/-- A registration goes with those before it unless something is wrong with it. -/
theorem fitting_concat_or_faulty (h : Fitting names before) :
    Fitting names (before ++ [registration]) ∨ ∃ error, Faulty names before registration error := by
  obtain ⟨kind, rule⟩ := registration
  by_cases hkind : kind ∈ names
  · by_cases hname : ∃ earlier, (kind, earlier) ∈ before ∧ earlier.name = rule.name
    · obtain ⟨earlier, hearlier, hname⟩ := hname
      exact .inr ⟨_, .duplicateRule hkind hearlier hname⟩
    · refine .inl ⟨fun other hmem => ?_, List.pairwise_append.2 ⟨h.distinct, by simp, ?_⟩⟩
      · rcases List.mem_append.1 hmem with hmem | hmem
        · exact h.declared other hmem
        · rw [List.mem_singleton.1 hmem]
          exact hkind
      · rintro ⟨other, earlier⟩ hmem new hnew (heq : other = new.1) hsame
        obtain rfl := List.mem_singleton.1 hnew
        obtain rfl : other = kind := heq
        exact hname ⟨earlier, hmem, hsame⟩
  · exact .inr ⟨_, .unknownKind hkind⟩

/-- Registrations that do not fit have a first one with a fault. -/
theorem exists_faulty {registrations : List (String × Rule)} (h : ¬ Fitting names registrations) :
    ∃ before registration after error, registrations = before ++ registration :: after ∧
      Fitting names before ∧ Faulty names before registration error := by
  induction registrations using List.reverseRecOn with
  | nil => exact absurd ⟨by simp, .nil⟩ h
  | append_singleton initial last ih =>
      by_cases hinitial : Fitting names initial
      · have hlast : Fitting names (initial ++ [last]) ∨ ∃ error, Faulty names initial last error :=
          fitting_concat_or_faulty hinitial
        obtain hfit | ⟨error, hfault⟩ := hlast
        · exact absurd hfit h
        · exact ⟨initial, last, [], error, rfl, hinitial, hfault⟩
      · obtain ⟨before, registration, after, error, rfl, hbefore, hfault⟩ := ih hinitial
        exact ⟨before, registration, after ++ [last], error, by simp, hbefore, hfault⟩

/-! ## The table of rules by kind -/

/-- The rules registered for a kind, in order. -/
def rulesOf (kind : String) (registrations : List (String × Rule)) : List Rule :=
  (registrations.filter (·.1 = kind)).map (·.2)

theorem mem_rulesOf {kind : String} {rule : Rule} {registrations : List (String × Rule)} :
    rule ∈ rulesOf kind registrations ↔ (kind, rule) ∈ registrations := by
  simp [rulesOf]

theorem rulesOf_concat (kind : String) :
    rulesOf kind (before ++ [registration]) =
      if kind = registration.1 then rulesOf kind before ++ [registration.2]
      else rulesOf kind before := by
  by_cases hkind : kind = registration.1
  · simp [rulesOf, hkind]
  · simp [rulesOf, hkind, Ne.symm hkind]

/-- The table holds the registrations, kind by kind. -/
structure Tabulates (rules : NameMap (List Rule)) (registrations : List (String × Rule)) :
    Prop where
  rulesOf : ∀ kind, (rules.get? kind).getD [] = rulesOf kind registrations
  total : (rules.values.map List.length).sum = registrations.length

theorem Tabulates.any_name {kind name : String} (h : Tabulates rules before) :
    (((rules.get? kind).getD []).any (·.name = name)) = true ↔
      ∃ earlier, (kind, earlier) ∈ before ∧ earlier.name = name := by
  rw [h.rulesOf, List.any_eq_true]
  simp only [mem_rulesOf, decide_eq_true_eq]

theorem enter_of_faulty (hnames : ∀ name, schema.contains name = true ↔ name ∈ names)
    (h : Tabulates rules before) (hfault : Faulty names before registration error) :
    enter schema rules registration = .error error := by
  cases hfault with
  | @unknownKind kind _ hkind =>
      have hcontains : schema.contains kind = false := by
        rw [← Bool.not_eq_true, hnames]
        exact hkind
      simp [enter, hcontains]
  | @duplicateRule kind _ earlier hkind hearlier hname =>
      simp only [enter, (hnames kind).2 hkind, h.any_name.2 ⟨earlier, hearlier, hname⟩,
        Bool.not_true, Bool.false_eq_true, if_false, if_true]

theorem enter_of_fitting (hnames : ∀ name, schema.contains name = true ↔ name ∈ names)
    (h : Tabulates rules before) (hfit : Fitting names (before ++ [registration])) :
    ∃ next, enter schema rules registration = .ok next ∧
      Tabulates next (before ++ [registration]) := by
  obtain ⟨kind, rule⟩ := registration
  have hkind : schema.contains kind = true := (hnames kind).2 (hfit.declared _ List.mem_concat_self)
  have hfresh : (((rules.get? kind).getD []).any (·.name = rule.name)) = false := by
    rw [← Bool.not_eq_true, h.any_name]
    rintro ⟨earlier, hearlier, hname⟩
    exact (List.pairwise_append.1 hfit.distinct).2.2 _ hearlier _ List.mem_cons_self rfl hname
  refine ⟨rules.insert kind ((rules.get? kind).getD [] ++ [rule]), ?_, fun other => ?_, ?_⟩
  · simp only [enter, hkind, hfresh, Bool.not_true, Bool.false_eq_true, if_false]
  · rw [NameMap.get?_insert, rulesOf_concat]
    split
    · next heq =>
        rw [heq, ← h.rulesOf]
        rfl
    · exact h.rulesOf other
  · have hsum := rules.sum_values_insert List.length kind ((rules.get? kind).getD [] ++ [rule])
    have hearlier : ((rules.get? kind).map List.length).getD 0 =
        ((rules.get? kind).getD []).length := by
      cases rules.get? kind <;> rfl
    rw [hearlier, h.total, List.length_append, List.length_singleton] at hsum
    rw [List.length_append, List.length_singleton]
    omega

/-- Registrations that fit are entered one after the other. -/
theorem foldlM_enter_of_fitting (hnames : ∀ name, schema.contains name = true ↔ name ∈ names)
    {registrations : List (String × Rule)} (hfit : Fitting names registrations) :
    ∃ rules, registrations.foldlM (enter schema) ∅ = .ok rules ∧
      Tabulates rules registrations := by
  induction registrations using List.reverseRecOn with
  | nil => exact ⟨∅, rfl, fun _ => rfl, rfl⟩
  | append_singleton before registration ih =>
      obtain ⟨rules, hrules, htable⟩ := ih hfit.of_append
      obtain ⟨next, hnext, hnextTable⟩ := enter_of_fitting hnames htable hfit
      refine ⟨next, ?_, hnextTable⟩
      rw [List.foldlM_append, bind_of_eq_ok hrules, List.foldlM_cons, bind_of_eq_ok hnext]
      rfl

/-! ## Closing the draft -/

/-- Closing a draft whose registrations fit makes a registry of them. -/
theorem build_of_fitting (hnames : ∀ name, draft.hasKind name = true ↔ name ∈ names)
    (hfit : Fitting names draft.registrations) :
    ∃ rules, draft.build = .ok { schema := draft.schema, rules } ∧
      Tabulates rules draft.registrations := by
  obtain ⟨rules, hrules, htable⟩ := foldlM_enter_of_fitting hnames hfit
  exact ⟨rules, by simp only [build, hrules], htable⟩

/-- Closing a draft reports the first registration with a fault. -/
theorem build_of_faulty (hnames : ∀ name, draft.hasKind name = true ↔ name ∈ names)
    (hsplit : draft.registrations = before ++ registration :: after)
    (hfit : Fitting names before) (hfault : Faulty names before registration error) :
    draft.build = .error error := by
  obtain ⟨rules, hrules, htable⟩ := foldlM_enter_of_fitting hnames hfit
  have hfold : draft.registrations.foldlM (enter draft.schema) ∅ = .error error := by
    rw [hsplit, List.foldlM_append, bind_of_eq_ok hrules, List.foldlM_cons,
      bind_of_eq_error (enter_of_faulty hnames htable hfault)]
  simp only [build, hfold]

/-- A draft that could be closed has fitting registrations, and they are in the registry. -/
theorem of_build_eq_ok {registry : Registry}
    (hnames : ∀ name, draft.hasKind name = true ↔ name ∈ names)
    (h : draft.build = .ok registry) :
    Fitting names draft.registrations ∧ registry.schema = draft.schema ∧
      Tabulates registry.rules draft.registrations := by
  by_cases hfit : Fitting names draft.registrations
  · obtain ⟨rules, hbuild, htable⟩ := build_of_fitting hnames hfit
    rw [h] at hbuild
    cases hbuild
    exact ⟨hfit, rfl, htable⟩
  · obtain ⟨before, registration, after, error, hsplit, hbefore, hfault⟩ := exists_faulty hfit
    rw [build_of_faulty hnames hsplit hbefore hfault] at h
    cases h

theorem build_eq_error_iff (hnames : ∀ name, draft.hasKind name = true ↔ name ∈ names) :
    draft.build = .error error ↔
      ∃ before registration after, draft.registrations = before ++ registration :: after ∧
        Fitting names before ∧ Faulty names before registration error := by
  constructor
  · intro h
    have hfit : ¬ Fitting names draft.registrations := by
      intro hfit
      obtain ⟨rules, hbuild, -⟩ := build_of_fitting hnames hfit
      rw [h] at hbuild
      cases hbuild
    obtain ⟨before, registration, after, reported, hsplit, hbefore, hfault⟩ := exists_faulty hfit
    have hreported := build_of_faulty hnames hsplit hbefore hfault
    rw [h] at hreported
    cases hreported
    exact ⟨before, registration, after, hsplit, hbefore, hfault⟩
  · rintro ⟨before, registration, after, hsplit, hbefore, hfault⟩
    exact build_of_faulty hnames hsplit hbefore hfault

end Draft

namespace Registry

variable {registry : Registry} {registrations : List (String × Rule)}

theorem ascending_modelReadingKinds (registry : Registry) :
    registry.modelReadingKinds.Pairwise (· < ·) :=
  List.pairwise_map.2 (registry.rules.ascending.filter _)

theorem mem_modelReadingKinds_iff (h : Draft.Tabulates registry.rules registrations)
    {kind : String} :
    kind ∈ registry.modelReadingKinds ↔
      ∃ rule, (kind, rule) ∈ registrations ∧ rule.readsModel = true := by
  have hentry : kind ∈ registry.modelReadingKinds ↔
      ∃ rules, registry.rules.get? kind = some rules ∧ rules.any (·.readsModel) = true := by
    simp [modelReadingKinds, NameMap.get?_eq_some_iff]
  have hlisted : ∀ rule, (kind, rule) ∈ registrations ↔
      rule ∈ (registry.rules.get? kind).getD [] := fun rule => by
    rw [h.rulesOf, Draft.mem_rulesOf]
  simp only [hentry, hlisted]
  cases registry.rules.get? kind with
  | none => simp
  | some rules => simp

end Registry

namespace Draft

open DraftStep

/-- Drawing up a registry, whatever the steps and their order. A declaration of a name
that an earlier step declared fails, leaves the draft unchanged, and is the only step that
fails. Closing the draft succeeds exactly if the registrations fit, and otherwise reports
the first one with a fault. The registry has the first declaration of each name, the rules
of every kind in the order of their registration, as many rules as were registered, and it
lists the kinds with a model-reading rule in ascending order, each once. -/
theorem drawing_up (steps : List DraftStep) :
    (∀ kind : KindDef,
      (kind.name ∈ (declared steps).map (·.name) →
        (drawn steps).take (.declare kind) =
          (drawn steps, .error (.duplicateKind kind.name))) ∧
      (kind.name ∉ (declared steps).map (·.name) →
        ((drawn steps).take (.declare kind)).2 = .ok ())) ∧
    ((∃ registry, (drawn steps).build = .ok registry) ↔
      Fitting ((declared steps).map (·.name)) (registered steps)) ∧
    (∀ error, (drawn steps).build = .error error ↔
      ∃ before registration after,
        registered steps = before ++ registration :: after ∧
        Fitting ((declared steps).map (·.name)) before ∧
        Faulty ((declared steps).map (·.name)) before registration error) ∧
    ∀ registry, (drawn steps).build = .ok registry →
      (∀ name, registry.schema.get? name = (declared steps).find? (·.name = name)) ∧
      (∀ kind, registry.rulesFor kind = rulesOf kind (registered steps)) ∧
      registry.ruleCount = (registered steps).length ∧
      registry.modelReadingKinds.Pairwise (· < ·) ∧
      ∀ kind, kind ∈ registry.modelReadingKinds ↔
        ∃ rule, (kind, rule) ∈ registered steps ∧ rule.readsModel = true := by
  have hnames := hasKind_drawn steps
  have hregistered := registrations_drawn steps
  refine ⟨fun kind => ⟨fun htaken => ?_, fun hfree => ?_⟩, ⟨?_, fun hfit => ?_⟩,
    fun error => ?_, fun registry hbuild => ?_⟩
  · exact take_declare_of_taken ((hnames kind.name).2 htaken)
  · rw [← hnames, Bool.not_eq_true] at hfree
    rw [take_declare_of_free hfree]
  · rintro ⟨registry, hbuild⟩
    exact hregistered ▸ (of_build_eq_ok hnames hbuild).1
  · obtain ⟨rules, hbuild, -⟩ := build_of_fitting hnames (hregistered ▸ hfit)
    exact ⟨_, hbuild⟩
  · rw [← hregistered]
    exact build_eq_error_iff hnames
  · obtain ⟨-, hschema, htable⟩ := of_build_eq_ok hnames hbuild
    rw [hregistered] at htable
    refine ⟨fun name => ?_, htable.rulesOf, ?_, Registry.ascending_modelReadingKinds _,
      fun kind => Registry.mem_modelReadingKinds_iff htable⟩
    · rw [hschema, schema_drawn]
    · rw [Registry.ruleCount, List.length_flatten]
      exact htable.total

end Draft

end ConceptExpansion
