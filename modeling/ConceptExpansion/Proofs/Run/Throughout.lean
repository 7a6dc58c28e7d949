/-
# What holds throughout the taking in of offers

Offers are taken in one at a time: when a batch receives its products, and again
whenever deferred offers are tried. A property of the state and of the offers
that are still to come holds throughout if every single offer keeps it, whether
the offer is placed or has to wait. This is the one induction over the taking in
of offers; what a batch keeps, and in which ways it can fail, are instances.

The last section is about where trying again stops: every offer that is left
waits for a key reference that leads nowhere.
-/

import ConceptExpansion.Proofs.Run.Intake
import ConceptExpansion.Run.Progress

namespace ConceptExpansion

/-! ## How an attempt ends -/

/-- The attempt succeeds only with results in `P` and fails only with errors in
`E`. -/
def Ends {ε α : Type} (E : ε → Prop) (P : α → Prop) : Except ε α → Prop
  | .error e => E e
  | .ok a => P a

namespace Ends

variable {ε α β σ : Type} {E : ε → Prop} {P : α → Prop} {R : β → Prop} {x : Except ε α}

theorem of_ok {a : α} (h : Ends E P x) (hx : x = .ok a) : P a := by
  subst hx
  exact h

theorem of_error {e : ε} (h : Ends E P x) (hx : x = .error e) : E e := by
  subst hx
  exact h

theorem imp_error {E' : ε → Prop} (h : Ends E P x) (himp : ∀ e, E e → E' e) :
    Ends E' P x := by
  cases x with
  | error e => exact himp e h
  | ok a => exact h

theorem imp {P' : α → Prop} (h : Ends E P x) (himp : ∀ a, P a → P' a) : Ends E P' x := by
  cases x with
  | error e => exact h
  | ok a => exact himp a h

theorem bind {f : α → Except ε β} (h : Ends E P x)
    (hnext : ∀ a, x = .ok a → P a → Ends E R (f a)) : Ends E R (x >>= f) := by
  cases x with
  | error e => exact h
  | ok a => exact hnext a rfl h

theorem and_of_ok {R : α → Prop} (h : Ends E P x) (hok : ∀ a, x = .ok a → R a) :
    Ends E (fun a => P a ∧ R a) x := by
  cases x with
  | error e => exact h
  | ok a => exact ⟨h, hok a rfl⟩

/-- A fold ends as its steps do; the property may speak of what is still to
come. -/
theorem foldlM {I : α → List σ → Prop} {f : α → σ → Except ε α}
    (hstep : ∀ {a s rest}, I a (s :: rest) → Ends E (I · rest) (f a s)) {l : List σ} {a : α}
    (h : I a l) : Ends E (I · []) (l.foldlM f a) := by
  induction l generalizing a with
  | nil => exact h
  | cons s l ih =>
      rw [List.foldlM_cons]
      exact bind (hstep h) fun _ _ hmiddle => ih hmiddle

end Ends

/-- A fold fails at one of its items, after it has got through those before. -/
theorem exists_of_foldlM_eq_error {ε α σ : Type} {f : α → σ → Except ε α} {l : List σ} {a : α}
    {e : ε} (h : l.foldlM f a = .error e) :
    ∃ before s after middle, l = before ++ s :: after ∧ before.foldlM f a = .ok middle ∧
      f middle s = .error e := by
  induction l generalizing a with
  | nil => cases h
  | cons s l ih =>
      rw [List.foldlM_cons] at h
      cases hfirst : f a s with
      | error cause =>
          rw [bind_of_eq_error hfirst] at h
          cases h
          exact ⟨[], s, l, a, rfl, rfl, hfirst⟩
      | ok next =>
          rw [bind_of_eq_ok hfirst] at h
          obtain ⟨before, s', after, middle, rfl, hbefore, hfail⟩ := ih h
          refine ⟨s :: before, s', after, middle, rfl, ?_, hfail⟩
          rw [List.foldlM_cons, bind_of_eq_ok hfirst, hbefore]

namespace Run

variable {settings : Settings} {run next : Run} {offers : List Offer}

/-! ## The induction -/

/-- The state after offers have been received and whatever is deferred has been
tried again. -/
def intake (settings : Settings) (run : Run) (offers : List Offer) :
    Except ExpansionError Run :=
  offers.foldlM (Run.receive settings) run >>= Run.retry settings

/-- Taking in an offer keeps the property `P` of the state and of the offers still
to come, and fails only with errors in `E`. A pass over the deferred offers has
all of them to come. -/
structure Throughout (settings : Settings) (E : ExpansionError → Prop)
    (P : Run → List Offer → Prop) : Prop where
  reject : ∀ {run : Run} {offer : Offer} {rest : List Offer} {cause : SchemaError},
    P run (offer :: rest) → run.store.schema.validate offer.concept = .error cause →
      E (offer.rejection cause)
  defer : ∀ {run : Run} {offer : Offer} {rest : List Offer} {target : Key},
    P run (offer :: rest) → run.store.missingTarget? offer.concept = some target →
      ∀ deferrals, P { run with
        deferred := run.deferred ++ [offer]
        stats := { run.stats with deferrals := deferrals } } rest
  place : ∀ {run : Run} {offer : Offer} {rest : List Offer},
    P run (offer :: rest) → run.store.missingTarget? offer.concept = none →
      Ends E (P · rest) (run.place settings offer)
  pass : ∀ {run : Run}, P run [] → P { run with deferred := [] } run.deferred

namespace Throughout

variable {E : ExpansionError → Prop} {P : Run → List Offer → Prop}

theorem imp_error {E' : ExpansionError → Prop} (h : Throughout settings E P)
    (himp : ∀ error, E error → E' error) : Throughout settings E' P where
  reject hrun hinvalid := himp _ (h.reject hrun hinvalid)
  defer := h.defer
  place hrun hmissing := (h.place hrun hmissing).imp_error himp
  pass := h.pass

theorem receive (h : Throughout settings E P) {offer : Offer} {rest : List Offer}
    (hrun : P run (offer :: rest)) : Ends E (P · rest) (run.receive settings offer) := by
  unfold Run.receive
  cases hvalid : run.store.schema.validate offer.concept with
  | error cause => exact h.reject hrun hvalid
  | ok kind =>
      dsimp only
      cases hmissing : run.store.missingTarget? offer.concept with
      | some target => exact h.defer hrun hmissing _
      | none => exact h.place hrun hmissing

theorem reconsider (h : Throughout settings E P) {offer : Offer} {rest : List Offer}
    (hrun : P run (offer :: rest)) : Ends E (P · rest) (run.reconsider settings offer) := by
  cases hmissing : run.store.missingTarget? offer.concept with
  | some target =>
      rw [reconsider_of_missing hmissing]
      exact h.defer hrun hmissing run.stats.deferrals
  | none =>
      rw [reconsider_of_none hmissing]
      exact h.place hrun hmissing

theorem receiveAll (h : Throughout settings E P) (hrun : P run offers) :
    Ends E (P · []) (offers.foldlM (Run.receive settings) run) :=
  Ends.foldlM h.receive hrun

theorem retryPass (h : Throughout settings E P) (hrun : P run []) :
    Ends E (P · []) (run.retryPass settings) :=
  Ends.foldlM h.reconsider (h.pass hrun)

theorem retry (h : Throughout settings E P) (hrun : P run []) :
    Ends E (P · []) (run.retry settings) := by
  fun_induction Run.retry settings run with
  | case1 run error hpass => exact (h.retryPass hrun).of_error hpass
  | case2 run middle hpass hlt ih => exact ih ((h.retryPass hrun).of_ok hpass)
  | case3 run middle hpass hnlt => exact (h.retryPass hrun).of_ok hpass

/-- To receive offers and then try again whatever is deferred keeps the property. -/
theorem intake (h : Throughout settings E P) (hrun : P run offers) :
    Ends E (P · []) (run.intake settings offers) :=
  (h.receiveAll hrun).bind fun _ _ hmiddle => h.retry hmiddle

end Throughout

/-- A property of the state alone holds throughout if placing an offer keeps it and
it does not look at the deferred offers. -/
theorem throughout_of_place {P : Run → Prop}
    (hdeferred : ∀ {run : Run} (deferred : List Offer) (deferrals : Nat), P run →
      P { run with deferred := deferred, stats := { run.stats with deferrals := deferrals } })
    (hplace : ∀ {run next : Run} {offer : Offer}, P run →
      run.place settings offer = .ok next → P next) :
    Throughout settings (fun _ => True) fun run _ => P run where
  reject _ _ := trivial
  defer hrun _ deferrals := hdeferred _ deferrals hrun
  place {run offer rest} hrun _ := by
    cases hplaced : run.place settings offer with
    | error e => trivial
    | ok next => exact hplace hrun hplaced
  pass {run} hrun := hdeferred [] run.stats.deferrals hrun

/-- To place an offer ends with a refusal of the store, with an excess of depth, or with the
next state. -/
theorem ends_place {E : ExpansionError → Prop} {P : Run → Prop} {offer : Offer}
    (hrefused : ∀ cause, run.store.insert offer.concept offer.origin = .error cause →
      E (.ofStoreError cause))
    (hdeep : ∀ admission store,
      run.store.insert offer.concept offer.origin = .ok (admission, store) →
      admission.isNew = true → settings.maxDepth < offer.depth →
      E (.nonTerminating (.depth settings.maxDepth)
        ((run.record offer store admission).chain admission.id)))
    (hplaced : ∀ next, run.place settings offer = .ok next → P next) :
    Ends E P (run.place settings offer) := by
  cases hplace : run.place settings offer with
  | ok next => exact hplaced next hplace
  | error error =>
      rw [place_eq] at hplace
      cases hinsert : run.store.insert offer.concept offer.origin with
      | error cause =>
          rw [hinsert] at hplace
          cases hplace
          exact hrefused cause hinsert
      | ok answer =>
          rw [hinsert] at hplace
          dsimp only at hplace
          split at hplace
          · next hexceeds =>
              cases hplace
              exact hdeep _ _ hinsert hexceeds.1 hexceeds.2
          · cases hplace

/-- The errors with which taking in an offer can end. -/
inductive OfIntake (settings : Settings) : ExpansionError → Prop
  | invalidSeed (position : Nat) (key : Key) (cause : SchemaError) :
      OfIntake settings (.invalidSeed position key cause)
  | invalidProduct (name : String) (source product : Key) (cause : SchemaError) :
      OfIntake settings (.ruleInvocation name source (.producedInvalid product cause))
  | ofStoreError (cause : StoreError) : OfIntake settings (.ofStoreError cause)
  | tooDeep (chain : List Key) :
      OfIntake settings (.nonTerminating (.depth settings.maxDepth) chain)

theorem throughout_ofIntake (settings : Settings) :
    Throughout settings (OfIntake settings) fun _ _ => True where
  reject {run offer rest cause} _ _ := by
    unfold Offer.rejection
    split
    · exact .invalidSeed _ _ _
    · exact .invalidProduct _ _ _ _
  defer _ _ _ := trivial
  place _ _ := ends_place (fun cause _ => .ofStoreError cause) (fun _ _ _ _ _ => .tooDeep _)
    fun _ _ => trivial
  pass _ := trivial

/-! ## Where trying again stops -/

/-- A pass that defers every offer again has placed none of them. -/
theorem idle_of_reconsiderAll (h : offers.foldlM (reconsider settings) run = .ok next)
    (hlength : next.deferred.length = run.deferred.length + offers.length) :
    next.store = run.store ∧ next.deferred = run.deferred ++ offers ∧
      ∀ offer ∈ offers, run.store.missingTarget? offer.concept ≠ none := by
  induction offers generalizing run with
  | nil =>
      cases h
      simp
  | cons offer offers ih =>
      rw [List.foldlM_cons] at h
      obtain ⟨middle, hfirst, h⟩ := exists_of_bind_eq_ok h
      have hle := (deferred_of_reconsider h).1
      obtain ⟨target, hmissing, rfl⟩ | ⟨-, hplace⟩ := reconsider_cases hfirst
      · rw [List.length_cons] at hlength
        obtain ⟨hstore, hdeferred, hall⟩ := ih h (by simp; omega)
        refine ⟨hstore, by rw [hdeferred, List.append_assoc]; rfl, fun other hother => ?_⟩
        rcases List.mem_cons.1 hother with rfl | hother
        · rw [hmissing]
          exact Option.some_ne_none target
        · exact hall other hother
      · -- A placed offer is one that is not deferred again.
        rw [(place_ok hplace).2] at hle
        rw [List.length_cons] at hlength
        omega

/-- A pass defers every offer again if all of them wait for a key reference that
leads nowhere. -/
theorem reconsiderAll_of_missing
    (h : ∀ offer ∈ offers, run.store.missingTarget? offer.concept ≠ none) :
    offers.foldlM (reconsider settings) run =
      .ok { run with deferred := run.deferred ++ offers } := by
  induction offers generalizing run with
  | nil => simp [pure, Except.pure]
  | cons offer offers ih =>
      obtain ⟨target, htarget⟩ := Option.ne_none_iff_exists'.1 (h offer List.mem_cons_self)
      have hrest := @ih { run with deferred := run.deferred ++ [offer] }
        fun other hother => h other (List.mem_cons_of_mem _ hother)
      rw [List.foldlM_cons, bind_of_eq_ok (reconsider_of_missing htarget), hrest,
        List.append_assoc]
      rfl

/-- A pass leaves fewer offers deferred if one of them could be placed to begin
with. -/
theorem retryPass_lt_iff (h : run.retryPass settings = .ok next) :
    next.deferred.length < run.deferred.length ↔
      ∃ offer ∈ run.deferred, run.store.missingTarget? offer.concept = none := by
  have hfold : run.deferred.foldlM (reconsider settings) { run with deferred := [] } =
      .ok next := h
  constructor
  · intro hlt
    by_contra hnone
    have hall : ∀ offer ∈ run.deferred, run.store.missingTarget? offer.concept ≠ none :=
      fun offer hoffer hplaceable => hnone ⟨offer, hoffer, hplaceable⟩
    have hstay := @reconsiderAll_of_missing settings { run with deferred := [] } _ hall
    cases hfold.symm.trans hstay
    exact Nat.lt_irrefl _ hlt
  · rintro ⟨offer, hoffer, hplaceable⟩
    by_contra hnlt
    have hle := (deferred_of_reconsider hfold).1
    rw [List.length_nil, Nat.zero_add] at hle
    obtain ⟨-, -, hall⟩ := idle_of_reconsiderAll hfold (by simp; omega)
    exact hall offer hoffer hplaceable

/-- Once trying again has stopped, every deferred offer waits for a key reference
that leads nowhere. -/
theorem missing_of_retry (h : run.retry settings = .ok next) :
    ∀ offer ∈ next.deferred, next.store.missingTarget? offer.concept ≠ none := by
  fun_induction Run.retry settings run with
  | case1 run error hpass => cases h
  | case2 run middle hpass hlt ih => exact ih h
  | case3 run middle hpass hnlt =>
      cases h
      have hfold : run.deferred.foldlM (reconsider settings) { run with deferred := [] } =
          .ok next := hpass
      have hle := (deferred_of_reconsider hfold).1
      rw [List.length_nil, Nat.zero_add] at hle
      obtain ⟨hstore, hdeferred, hall⟩ := idle_of_reconsiderAll hfold (by simp; omega)
      rw [hstore, hdeferred]
      exact hall

end Run

end ConceptExpansion
