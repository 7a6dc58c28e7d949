/-
# Batches that are checked

A run relies on three things that its definitions do not enforce. Accesses by index are
to places that exist. The store refuses an offer only for a conflict or because it is
full: whatever else could be wrong with it has been looked for before. And a concept
that is marked has not come further yet than what it is marked with. Here the run is
stated with these conditions checked at each point where it relies on them, and it ends
in a `Panic` where one is violated.

`Mirrors` compares the two: the checked attempt succeeds with the same result or fails
with the same error. It does so as long as the store is well-formed and every offer that
waits fits the schema. That this remains so is what makes it safe to try an offer again
without validating it a second time.
-/

import ConceptExpansion.Proofs.Run.Course
import ConceptExpansion.Proofs.Store.Checked
import ConceptExpansion.Proofs.Store.Refusals

namespace ConceptExpansion

/-- A condition that a run relies on and that is violated. -/
inductive Panic where
  /-- An access is to a place that does not exist. -/
  | outOfRange (access : OutOfRange)
  /-- The store refuses an offer for something that has been looked for before. -/
  | refused (cause : StoreError)
  /-- A concept has come further than it is marked with. -/
  | regressed (id : ConceptId) (current target : Stage)

/-- How a checked run can end without a model. -/
inductive Halt where
  /-- It fails as the run does. -/
  | failed (error : ExpansionError)
  /-- A condition is violated. -/
  | panicked (panic : Panic)

/-- An access that is made by a run. -/
def inRange {α : Type} (access : Except OutOfRange α) : Except Halt α :=
  access.mapError fun access => .panicked (.outOfRange access)

/-! ## Mirrors -/

/-- The store has refused something only for what it may refuse. -/
def ExpansionError.NotRefused (error : ExpansionError) : Prop :=
  ∀ cause, error ≠ .refused cause

/-- The checked attempt succeeds with the same result, which is in `P`, or fails with the
same error. -/
inductive Mirrors {α : Type} (P : α → Prop) : Except Halt α → Except ExpansionError α → Prop
  | ok {a : α} (h : P a) : Mirrors P (.ok a) (.ok a)
  | failed {error : ExpansionError} (h : error.NotRefused) :
      Mirrors P (.error (.failed error)) (.error error)

namespace Mirrors

variable {α β σ : Type} {P Q : α → Prop} {R : β → Prop} {x : Except Halt α}
  {y : Except ExpansionError α}

theorem eq (h : Mirrors P x y) : x = y.mapError Halt.failed := by
  cases h with
  | ok | failed => rfl

theorem notRefused {error : ExpansionError} (h : Mirrors P x y) (hy : y = .error error) :
    error.NotRefused := by
  subst hy
  cases h with
  | failed h => exact h

theorem not_panicked (h : Mirrors P x y) (panic : Panic) : x ≠ .error (.panicked panic) := by
  cases h with
  | ok | failed => exact nofun

theorem imp (h : Mirrors P x y) (himp : ∀ a, y = .ok a → P a → Q a) : Mirrors Q x y := by
  cases h with
  | ok h => exact .ok (himp _ rfl h)
  | failed h => exact .failed h

theorem bind {f : α → Except Halt β} {g : α → Except ExpansionError β} (h : Mirrors P x y)
    (hnext : ∀ a, y = .ok a → P a → Mirrors R (f a) (g a)) : Mirrors R (x >>= f) (y >>= g) := by
  cases h with
  | ok h => exact hnext _ rfl h
  | failed h => exact .failed h

/-- Folds mirror each other if their steps do; the property may speak of what is still to
come. -/
theorem foldlM {I : α → List σ → Prop} {f : α → σ → Except Halt α}
    {g : α → σ → Except ExpansionError α}
    (hstep : ∀ {a : α} {s : σ} {rest : List σ}, I a (s :: rest) →
      Mirrors (I · rest) (f a s) (g a s)) {l : List σ} {a : α} (h : I a l) :
    Mirrors (I · []) (l.foldlM f a) (l.foldlM g a) := by
  induction l generalizing a with
  | nil => exact .ok h
  | cons s l ih =>
      rw [List.foldlM_cons, List.foldlM_cons]
      exact (hstep h).bind fun _ _ hnext => ih hnext

end Mirrors

namespace Run

variable (settings : Settings)

/-! ## Taking in offers -/

/-- Hands a checked offer to the store, which may refuse it for a conflict or because it
is full. -/
def placeChecked (run : Run) (offer : Offer) : Except Halt Run := do
  match ← inRange (run.store.insertChecked offer.concept offer.origin) with
  | .error (.conflict conflict) => .error (.failed (.duplicateKeyConflict conflict))
  | .error (.capacity key limit) => .error (.failed (.capacityExceeded key limit))
  | .error cause => .error (.panicked (.refused cause))
  | .ok (admission, store) =>
    let next := run.record offer store admission
    if admission.isNew ∧ settings.maxDepth < offer.depth then
      .error (.failed (.nonTerminating (.depth settings.maxDepth) (next.chain admission.id)))
    else .ok next

/-- Takes in an offer. -/
def receiveChecked (run : Run) (offer : Offer) : Except Halt Run :=
  match run.store.schema.validate offer.concept with
  | .error cause => .error (.failed (offer.rejection cause))
  | .ok _ =>
    match run.store.missingTarget? offer.concept with
    | some _ =>
      .ok { run with
        deferred := run.deferred ++ [offer]
        stats := { run.stats with deferrals := run.stats.deferrals + 1 } }
    | none => run.placeChecked settings offer

/-- Tries a deferred offer again, without validating it. -/
def reconsiderChecked (run : Run) (offer : Offer) : Except Halt Run :=
  match run.store.missingTarget? offer.concept with
  | some _ => .ok { run with deferred := run.deferred ++ [offer] }
  | none => run.placeChecked settings offer

/-- Tries every deferred offer once more, in order. -/
def retryPassChecked (run : Run) : Except Halt Run :=
  run.deferred.foldlM (reconsiderChecked settings) { run with deferred := [] }

/-- Tries the deferred offers until a pass places none of them. -/
def retryChecked (run : Run) : Except Halt Run :=
  match run.retryPassChecked settings with
  | .error halt => .error halt
  | .ok next =>
    if next.deferred.length < run.deferred.length then next.retryChecked else .ok next
termination_by run.deferred.length

/-! ## Running a batch -/

/-- Charges a batch to the budget. If there is not enough of it left, the first job that
it does not cover has to exist. -/
def chargeChecked (run : Run) (jobs : List Job) : Except Halt Run :=
  let budget := settings.budget run.stats.seeds
  let available := budget - run.stats.ruleInvocations
  if available < jobs.length then do
    let culprit ← inRange (Table.lookup jobs.toArray available)
    .error (.failed (.nonTerminating (.expansions budget) (run.chain culprit.source)))
  else .ok (run.charged jobs)

/-- What the rule of a job answers. It may look up whatever the store has. -/
def answerChecked (store : Store) (job : Job) :
    Except Halt (Except RuleFailure (List Concept)) := do
  inRange store.lookUpAll
  return job.answer store

/-- Takes in the answer of a job. -/
def absorbChecked (run : Run) (answered : Job × Except RuleFailure (List Concept)) :
    Except Halt Run :=
  let (job, answer) := answered
  match run.store.get? job.source with
  | none => .ok run
  | some entry =>
    match answer with
    | .error failure => .error (.failed (.ruleInvocation job.rule.name entry.key (.failed failure)))
    | .ok products =>
      (run.offersOf job entry.key products).foldlM (receiveChecked settings) run

/-- Runs a batch of jobs. -/
def runBatchChecked (run : Run) (jobs : List Job) : Except Halt Run := do
  let charged ← run.chargeChecked settings jobs
  let answers ← jobs.mapM (answerChecked charged.store)
  let absorbed ← (jobs.zip answers).foldlM (absorbChecked settings) charged.beginBatch
  absorbed.retryChecked settings

variable {settings} {run : Run} {offer : Offer} {jobs : List Job}

/-! ## What a run relies on -/

/-- The store is well-formed, and what waits fits the schema. -/
structure Sound (run : Run) : Prop where
  wellFormed : run.store.WellFormed
  waiting : ∀ offer ∈ run.deferred, ∃ kind, run.store.schema.validate offer.concept = .ok kind

theorem Sound.defer (h : run.Sound) {kind : KindDef}
    (hvalid : run.store.schema.validate offer.concept = .ok kind) (stats : Stats) :
    Sound { run with deferred := run.deferred ++ [offer], stats := stats } := by
  refine ⟨h.wellFormed, fun other hother => ?_⟩
  rcases List.mem_append.1 hother with hwaits | hlast
  · exact h.waiting other hwaits
  · rw [List.mem_singleton.1 hlast]
    exact ⟨kind, hvalid⟩

theorem Sound.place (h : run.Sound) {next : Run} (hplaced : run.place settings offer = .ok next) :
    next.Sound ∧ next.store.schema = run.store.schema := by
  have hcarries := (carries_of_place h.wellFormed hplaced).1
  refine ⟨⟨hcarries.wellFormed, ?_⟩, hcarries.grows.schema⟩
  rw [(place_ok hplaced).2, hcarries.grows.schema]
  exact h.waiting

/-- A valid offer with resolvable key references is refused only for a conflict or
because the store is full. -/
theorem mirrors_place (h : run.Sound) {kind : KindDef}
    (hvalid : run.store.schema.validate offer.concept = .ok kind)
    (hmissing : run.store.missingTarget? offer.concept = none) :
    Mirrors (fun next => next.Sound ∧ next.store.schema = run.store.schema)
      (run.placeChecked settings offer) (run.place settings offer) := by
  have hchecked : inRange (run.store.insertChecked offer.concept offer.origin) =
      .ok (run.store.insert offer.concept offer.origin) := by
    rw [h.wellFormed.insertChecked_eq]
    rfl
  have hmirrors : Mirrors (fun _ => True) (run.placeChecked settings offer)
      (run.place settings offer) := by
    rw [place_eq, placeChecked, bind_of_eq_ok hchecked]
    cases hinsert : run.store.insert offer.concept offer.origin with
    | error cause =>
        cases Store.refusal_of_insert hinsert with
        | invalid hinvalid =>
            rw [hvalid] at hinvalid
            cases hinvalid
        | unresolved _ hunresolved =>
            rw [hmissing] at hunresolved
            cases hunresolved
        | conflict | full => exact .failed nofun
    | ok answer =>
        dsimp only
        split
        · exact .failed nofun
        · exact .ok trivial
  exact hmirrors.imp fun next hnext _ => h.place hnext

/-- An offer that has not been validated is not safe to place. -/
example : placeChecked {} (beforeSeeds { schema := {} } 0)
      { concept := { kind := "Ghost" }, origin := .seed 0, parent := none, depth := 0 } =
    .error (.panicked (.refused (.invalid (.unknownKind "Ghost")))) := by
  cbv

theorem notRefused_rejection (offer : Offer) (cause : SchemaError) :
    (offer.rejection cause).NotRefused := by
  unfold Offer.rejection
  split <;> exact nofun

theorem mirrors_receive (h : run.Sound) :
    Mirrors Sound (run.receiveChecked settings offer) (run.receive settings offer) := by
  unfold receiveChecked receive
  cases hvalid : run.store.schema.validate offer.concept with
  | error cause => exact .failed (notRefused_rejection offer cause)
  | ok kind =>
      dsimp only
      cases hmissing : run.store.missingTarget? offer.concept with
      | some target => exact .ok (h.defer hvalid _)
      | none => exact (mirrors_place h hvalid hmissing).imp fun _ _ hnext => hnext.1

theorem mirrors_reconsider (h : run.Sound) {kind : KindDef}
    (hvalid : run.store.schema.validate offer.concept = .ok kind) :
    Mirrors (fun next => next.Sound ∧ next.store.schema = run.store.schema)
      (run.reconsiderChecked settings offer) (run.reconsider settings offer) := by
  unfold reconsiderChecked reconsider
  cases hmissing : run.store.missingTarget? offer.concept with
  | some target => exact .ok ⟨h.defer hvalid run.stats, rfl⟩
  | none => exact mirrors_place h hvalid hmissing

/-- What is deferred was valid when it came, so it need not be validated again. -/
theorem mirrors_retryPass (h : run.Sound) :
    Mirrors Sound (run.retryPassChecked settings) (run.retryPass settings) := by
  have hbegin : Sound { run with deferred := [] } :=
    ⟨h.wellFormed, fun _ hoffer => absurd hoffer List.not_mem_nil⟩
  have hfold := Mirrors.foldlM (f := reconsiderChecked settings) (g := reconsider settings)
    (I := fun run rest => run.Sound ∧
      ∀ offer ∈ rest, ∃ kind, run.store.schema.validate offer.concept = .ok kind)
    (l := run.deferred) ?_ ⟨hbegin, h.waiting⟩
  · exact hfold.imp fun _ _ hnext => hnext.1
  · rintro state offer rest ⟨hstate, hvalid⟩
    obtain ⟨kind, hkind⟩ := hvalid offer List.mem_cons_self
    refine (mirrors_reconsider hstate hkind).imp fun next _ hnext => ⟨hnext.1, ?_⟩
    rw [hnext.2]
    exact fun other hother => hvalid other (List.mem_cons_of_mem _ hother)

theorem retryChecked_eq (run : Run) :
    run.retryChecked settings = run.retryPassChecked settings >>= fun next =>
      if next.deferred.length < run.deferred.length then next.retryChecked settings
      else .ok next := by
  rw [retryChecked]
  cases run.retryPassChecked settings <;> rfl

theorem mirrors_retry (h : run.Sound) :
    Mirrors Sound (run.retryChecked settings) (run.retry settings) := by
  induction hlength : run.deferred.length using Nat.strong_induction_on generalizing run with
  | _ length ih =>
      rw [retryChecked_eq, retry_eq]
      refine (mirrors_retryPass h).bind fun next _ hnext => ?_
      split
      · next hlt => exact ih _ (hlength ▸ hlt) hnext rfl
      · exact .ok hnext

theorem mirrors_receiveAll (h : run.Sound) (offers : List Offer) :
    Mirrors Sound (offers.foldlM (receiveChecked settings) run)
      (offers.foldlM (receive settings) run) :=
  Mirrors.foldlM (I := fun run _ => Sound run) mirrors_receive h

/-! ## What a batch relies on -/

theorem mirrors_charge (h : run.Sound) :
    Mirrors Sound (run.chargeChecked settings jobs) (run.charge settings jobs) := by
  unfold chargeChecked charge
  dsimp only
  split
  · next hover =>
      have hculprit : inRange (Table.lookup jobs.toArray
          (settings.budget run.stats.seeds - run.stats.ruleInvocations)) =
          .ok jobs[settings.budget run.stats.seeds - run.stats.ruleInvocations] := by
        rw [Table.lookup_eq (by rw [List.getElem?_toArray, List.getElem?_eq_getElem hover])]
        rfl
      rw [bind_of_eq_ok hculprit]
      exact .failed nofun
  · exact .ok ⟨h.wellFormed, h.waiting⟩

theorem mirrors_absorb (h : run.Sound) (answered : Job × Except RuleFailure (List Concept)) :
    Mirrors Sound (run.absorbChecked settings answered) (run.absorb settings answered) := by
  obtain ⟨job, answer⟩ := answered
  unfold absorbChecked absorb
  dsimp only
  cases run.store.get? job.source with
  | none => exact .ok h
  | some entry =>
      cases answer with
      | error failure => exact .failed nofun
      | ok products => exact mirrors_receiveAll h _

theorem answersChecked_eq (hstore : run.store.WellFormed) (jobs : List Job) :
    jobs.mapM (answerChecked run.store) = .ok (jobs.map (Job.answer run.store)) := by
  apply mapM_eq_ok
  intro job _
  unfold answerChecked
  rw [hstore.lookUpAll_eq]
  rfl

theorem mirrors_runBatch (h : run.Sound) :
    Mirrors Sound (run.runBatchChecked settings jobs) (run.runBatch settings jobs) := by
  unfold runBatchChecked runBatch
  refine (mirrors_charge h).bind fun charged _ hcharged => ?_
  rw [bind_of_eq_ok (answersChecked_eq hcharged.wellFormed jobs)]
  have hbegin : charged.beginBatch.Sound := ⟨hcharged.wellFormed, hcharged.waiting⟩
  refine Mirrors.bind (P := Sound) ?_ fun absorbed _ habsorbed => mirrors_retry habsorbed
  exact Mirrors.foldlM (I := fun run _ => Sound run) (fun hstate => mirrors_absorb hstate _) hbegin

end Run

end ConceptExpansion
