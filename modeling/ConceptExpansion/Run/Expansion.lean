/-
# Expansion to a fixed point

`Registry.expand` is the whole of an expansion. The seeds are offered by
ascending key, so that the order in which they are given does not matter. Steps
follow until the run is settled, which happens because every step makes the run
smaller. A settled run yields a model unless something was left unresolved: an
offer that still waits for a key reference, or a reference to a concept that is
not stored.
-/

import ConceptExpansion.Model
import ConceptExpansion.Run.Progress
import ConceptExpansion.Store.Precedence

namespace ConceptExpansion

/-- The offers that the seeds amount to, by ascending key. Seeds with one key
keep the order in which they are given. -/
def Offer.ofSeeds (seeds : List Concept) : List Offer :=
  (seeds.zipIdx.map fun (concept, position) =>
    { concept, origin := .seed position, parent := none, depth := 0 : Offer }).mergeSort
      fun a b => a.concept.key.atMost b.concept.key

namespace Run

variable (registry : Registry) (settings : Settings)

/-- The state of a run over this many seeds before any of them is offered. -/
def beforeSeeds (seeds : Nat) : Run where
  store := .empty registry.schema
  stats := { seeds }

/-- The state of a run once its seeds have been offered. -/
def start (seeds : List Concept) : Except ExpansionError Run := do
  let offered ← (Offer.ofSeeds seeds).foldlM (receive settings)
    (beforeSeeds registry seeds.length)
  offered.retry settings

/-- Steps until the run is settled. -/
def toFixpoint (run : Run) : Except ExpansionError Run :=
  if _ : run.phase = .settled then .ok run
  else
    match _ : run.step registry settings with
    | .error error => .error error
    | .ok next => next.toFixpoint
termination_by (run.budgetLeft settings, run.deferred.length, run.distance)
decreasing_by exact step_decreases ‹_› ‹_›

/-- The state after this many steps. A settled run stays as it is. -/
def steps (run : Run) : Nat → Except ExpansionError Run
  | 0 => .ok run
  | count + 1 =>
    match run.step registry settings with
    | .error error => .error error
    | .ok next => next.steps count

variable {registry : Registry} {settings : Settings}

theorem toFixpoint_of_settled {run : Run} (hphase : run.phase = .settled) :
    run.toFixpoint registry settings = .ok run := by
  rw [toFixpoint, dif_pos hphase]

/-- A settled run has nothing left to do. -/
theorem step_of_settled {run : Run} (hphase : run.phase = .settled) :
    run.step registry settings = .ok run := by
  rw [step, hphase]

/-- A step on the way does not change where a run ends up. -/
theorem toFixpoint_of_step {run next : Run} (h : run.step registry settings = .ok next) :
    run.toFixpoint registry settings = next.toFixpoint registry settings := by
  by_cases hphase : run.phase = .settled
  · obtain rfl : run = next := Except.ok.inj ((step_of_settled hphase).symm.trans h)
    rfl
  · rw [toFixpoint, dif_neg hphase]
    split
    · next herror => rw [h] at herror; cases herror
    · next hok => rw [h] at hok; cases hok; rfl

theorem toFixpoint_of_step_error {run : Run} {error : ExpansionError}
    (h : run.step registry settings = .error error) :
    run.toFixpoint registry settings = .error error := by
  have hphase : run.phase ≠ .settled := fun hphase => by
    rw [step_of_settled hphase] at h
    cases h
  rw [toFixpoint, dif_neg hphase]
  split
  · next herror => rw [h] at herror; cases herror; rfl
  · next hok => rw [h] at hok; cases hok

/-- Where a run ends up is where its next step does. -/
theorem toFixpoint_eq (run : Run) :
    run.toFixpoint registry settings =
      run.step registry settings >>= fun next => next.toFixpoint registry settings := by
  cases hstep : run.step registry settings with
  | error error => exact toFixpoint_of_step_error hstep
  | ok next => exact toFixpoint_of_step hstep

/-- A run that is settled after some steps ends up there. -/
theorem toFixpoint_of_steps {run last : Run} {count : Nat}
    (h : run.steps registry settings count = .ok last) (hphase : last.phase = .settled) :
    run.toFixpoint registry settings = .ok last := by
  induction count generalizing run with
  | zero =>
    cases h
    exact toFixpoint_of_settled hphase
  | succ count ih =>
    rw [steps] at h
    split at h
    · cases h
    · next hstep => rw [toFixpoint_of_step hstep, ih h]

/-- A run that fails after some steps fails. -/
theorem toFixpoint_of_steps_error {run : Run} {error : ExpansionError} {count : Nat}
    (h : run.steps registry settings count = .error error) :
    run.toFixpoint registry settings = .error error := by
  induction count generalizing run with
  | zero => cases h
  | succ count ih =>
    rw [steps] at h
    split at h
    · next hstep => cases h; exact toFixpoint_of_step_error hstep
    · next hstep => rw [toFixpoint_of_step hstep, ih h]

/-- The deferred offer with the least key, the first of several. -/
def leastDeferred? (run : Run) : Option Offer :=
  (run.deferred.mergeSort fun a b => a.concept.key.atMost b.concept.key).head?

/-- What a settled run has left unresolved. The least deferred offer is reported
first, with the key reference that it waits for; after that the first stored
concept with a reference to a concept that is not stored. -/
def loose? (run : Run) : Option ExpansionError :=
  match run.leastDeferred? with
  | some offer =>
    let key := offer.concept.key
    some (.unresolvedReference key offer.origin
      ((run.store.missingTarget? offer.concept).getD key))
  | none =>
    run.store.dangling.head?.map fun (entry, target) =>
      .unresolvedReference entry.key entry.origin target

/-- The model of a settled run. -/
def finish (run : Run) : Except ExpansionError Model :=
  match run.loose? with
  | some error => .error error
  | none =>
    .ok {
      store := run.store
      order := run.store.precedence
      stats := { run.stats with concepts := run.store.size } }

end Run

/-- Expands seeds under a registry: the model that holds the seeds, is closed
under the rules and has no reference to a concept that it does not hold. -/
def Registry.expand (registry : Registry) (settings : Settings) (seeds : List Concept) :
    Except ExpansionError Model := do
  let started ← Run.start registry settings seeds
  let settled ← started.toFixpoint registry settings
  settled.finish

end ConceptExpansion
