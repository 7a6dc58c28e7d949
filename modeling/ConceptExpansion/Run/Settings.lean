/-
# Settings of an expansion

Two ceilings keep a runaway expansion in check: the length of a derivation
chain, and the number of rule invocations, which is granted per seed so that
the budget grows with the input. Settings can be read from text variables; a
variable that is absent leaves the default in place, and the first one that
cannot be read is reported with its text unchanged.
-/

import ConceptExpansion.Text.Blank
import ConceptExpansion.Text.Decimal

namespace ConceptExpansion

/-- Why settings cannot be read: the variable holds a text of another form. -/
inductive SettingsError where
  /-- The text of this variable is not of the form that the variable needs. -/
  | invalid (name value : String)
  deriving DecidableEq

/-- The text of a settings error. -/
def SettingsError.message : SettingsError → String
  | invalid name value => "Invalid value for " ++ name ++ ": '" ++ value ++ "'"

/-- How an expansion runs. -/
structure Settings where
  /-- The length that a derivation chain may reach; seeds have length zero. -/
  maxDepth : Nat := 100
  /-- The number of rule invocations granted for each seed. -/
  maxExpansions : Nat := 10000
  /-- Whether the rules of one batch may be invoked side by side. They all read
  the same store and their answers are absorbed in a fixed order, so the outcome
  of an expansion does not depend on it. -/
  parallel : Bool := false
  deriving DecidableEq

namespace Settings

/-- The largest count: counts are 64-bit words. -/
def maxCount : Nat := 18446744073709551615

/-- The number of rule invocations granted to a run over this many seeds. A run
without seeds has the budget of one, and no budget exceeds the largest count. -/
def budget (settings : Settings) (seeds : Nat) : Nat :=
  min (settings.maxExpansions * max seeds 1) maxCount

/-- A larger number of seeds does not have a smaller budget. -/
theorem budget_mono (settings : Settings) {a b : Nat} (h : a ≤ b) :
    settings.budget a ≤ settings.budget b := by
  have hseeds : max a 1 ≤ max b 1 := by omega
  have hgranted := Nat.mul_le_mul_left settings.maxExpansions hseeds
  unfold budget
  omega

/-- A positive count: digits, after at most one plus sign. -/
def count? (text : String) : Option Nat :=
  let digits :=
    match Text.trim text.toList with
    | '+' :: rest => rest
    | digits => digits
  match Text.numeral? digits with
  | some n => if 0 < n ∧ n ≤ maxCount then some n else none
  | none => none

/-- The words for a setting that is on. -/
def onWords : List String :=
  ["1", "true", "yes", "on"]

/-- The words for a setting that is off. -/
def offWords : List String :=
  ["0", "false", "no", "off"]

/-- A truth value in words, in letters of either case. -/
def flag? (text : String) : Option Bool :=
  let word := String.ofList ((Text.trim text.toList).map Char.toLower)
  if word ∈ onWords then some true
  else if word ∈ offWords then some false
  else none

/-- The value of a variable, or the default if it is absent. -/
def readWith {α : Type} (read? : String → Option α) (lookup : String → Option String)
    (name : String) (default : α) : Except SettingsError α :=
  match lookup name with
  | none => .ok default
  | some text =>
    match read? text with
    | some value => .ok value
    | none => .error (.invalid name text)

/-- The variable for `maxDepth`. -/
def maxDepthName : String := "CADRE_MAX_DEPTH"

/-- The variable for `maxExpansions`. -/
def maxExpansionsName : String := "CADRE_MAX_EXPANSIONS"

/-- The variable for `parallel`. -/
def parallelName : String := "CADRE_PARALLEL"

/-- The settings that the variables ask for. -/
def read (lookup : String → Option String) : Except SettingsError Settings := do
  let defaults : Settings := {}
  let maxDepth ← readWith count? lookup maxDepthName defaults.maxDepth
  let maxExpansions ← readWith count? lookup maxExpansionsName defaults.maxExpansions
  let parallel ← readWith flag? lookup parallelName defaults.parallel
  return { maxDepth, maxExpansions, parallel }

end Settings

end ConceptExpansion
