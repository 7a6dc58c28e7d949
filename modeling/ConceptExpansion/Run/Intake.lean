/-
# Taking in offers

An offer that fits the schema is placed in the store if its key references are
resolvable, and deferred if not. Deferred offers are tried again, pass by pass
and in the order in which they came, until a pass places none of them. A pass
never makes the list of deferred offers longer, which is why the passes end.
-/

import ConceptExpansion.Run.State

namespace ConceptExpansion

/-- The error for an offer that does not fit the schema. -/
def Offer.rejection (offer : Offer) (cause : SchemaError) : ExpansionError :=
  match offer.origin with
  | .seed position => .invalidSeed position offer.concept.key cause
  | .rule name source =>
    .ruleInvocation name source (.producedInvalid offer.concept.key cause)

namespace Run

variable (settings : Settings)

/-- Hands a checked offer to the store. -/
def place (run : Run) (offer : Offer) : Except ExpansionError Run :=
  match run.store.insert offer.concept offer.origin with
  | .error cause => .error (.ofStoreError cause)
  | .ok (.admitted id, store) =>
    let run := { run with
      store := store
      lineage := run.lineage.push { parent := offer.parent, depth := offer.depth }
      stats := { run.stats with
        maxDepthReached := max run.stats.maxDepthReached offer.depth } }
    if settings.maxDepth < offer.depth then
      .error (.nonTerminating (.depth settings.maxDepth) (run.chain id))
    else .ok { run with fresh := run.fresh.push id, changed := true }
  | .ok (.merged _, store) =>
    .ok { run with
      store := store
      changed := true
      stats := { run.stats with merges := run.stats.merges + 1 } }
  | .ok (.alreadyPresent _, store) =>
    .ok { run with
      store := store
      stats := { run.stats with alreadyPresent := run.stats.alreadyPresent + 1 } }

/-- Takes in an offer: refuses one that does not fit the schema, defers one whose
key references are not all resolvable yet, and places any other. -/
def receive (run : Run) (offer : Offer) : Except ExpansionError Run :=
  match run.store.schema.validate offer.concept with
  | .error cause => .error (offer.rejection cause)
  | .ok _ =>
    match run.store.missingTarget? offer.concept with
    | some _ =>
      .ok { run with
        deferred := run.deferred ++ [offer]
        stats := { run.stats with deferrals := run.stats.deferrals + 1 } }
    | none => run.place settings offer

/-- Tries a deferred offer again. -/
def reconsider (run : Run) (offer : Offer) : Except ExpansionError Run :=
  match run.store.missingTarget? offer.concept with
  | some _ => .ok { run with deferred := run.deferred ++ [offer] }
  | none => run.place settings offer

/-- Tries every deferred offer once more, in order. -/
def retryPass (run : Run) : Except ExpansionError Run :=
  run.deferred.foldlM (reconsider settings) { run with deferred := [] }

/-- Tries the deferred offers until a pass places none of them. -/
def retry (run : Run) : Except ExpansionError Run :=
  match run.retryPass settings with
  | .error error => .error error
  | .ok next =>
    if next.deferred.length < run.deferred.length then next.retry else .ok next
termination_by run.deferred.length

section Offers

variable {settings : Settings} {run next : Run} {offer : Offer}

/-- An offer that is received fits the schema. It has to wait for a key reference, or it is
placed. -/
theorem receive_cases (h : run.receive settings offer = .ok next) :
    (∃ kind, run.store.schema.validate offer.concept = .ok kind) ∧
      ((∃ target, run.store.missingTarget? offer.concept = some target ∧
        next = { run with
          deferred := run.deferred ++ [offer]
          stats := { run.stats with deferrals := run.stats.deferrals + 1 } }) ∨
      run.store.missingTarget? offer.concept = none ∧ run.place settings offer = .ok next) := by
  unfold receive at h
  split at h
  · cases h
  · next kind hvalid =>
      refine ⟨⟨kind, hvalid⟩, ?_⟩
      split at h
      · next target hmissing => exact .inl ⟨target, hmissing, (Except.ok.inj h).symm⟩
      · next hmissing => exact .inr ⟨hmissing, h⟩

theorem reconsider_of_missing {target : Key}
    (h : run.store.missingTarget? offer.concept = some target) :
    run.reconsider settings offer = .ok { run with deferred := run.deferred ++ [offer] } := by
  rw [reconsider, h]

theorem reconsider_of_none (h : run.store.missingTarget? offer.concept = none) :
    run.reconsider settings offer = run.place settings offer := by
  rw [reconsider, h]

/-- A deferred offer that is tried again has to wait still, or it is placed. -/
theorem reconsider_cases (h : run.reconsider settings offer = .ok next) :
    (∃ target, run.store.missingTarget? offer.concept = some target ∧
      next = { run with deferred := run.deferred ++ [offer] }) ∨
    run.store.missingTarget? offer.concept = none ∧ run.place settings offer = .ok next := by
  cases hmissing : run.store.missingTarget? offer.concept with
  | some target =>
      rw [reconsider_of_missing hmissing] at h
      exact .inl ⟨target, rfl, (Except.ok.inj h).symm⟩
  | none =>
      rw [reconsider_of_none hmissing] at h
      exact .inr ⟨rfl, h⟩

end Offers

end Run

end ConceptExpansion
