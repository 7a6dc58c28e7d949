/-
# What settings can be read from

A count is at most one plus sign and decimal digits, and a flag is one of eight words in
letters of either case; blanks around either do not matter. Reading accepts just these
texts, with the defaults for what is absent. What is refused is the first variable, in the
order of reading, that holds anything else, and its text is reported as it was found.
-/

import Mathlib
import ConceptExpansion.Run.Settings
import ConceptExpansion.Proofs.Agreement
import ConceptExpansion.Proofs.Text.Blank
import ConceptExpansion.Proofs.Text.Decimal

namespace ConceptExpansion

namespace Settings

/-! ## Counts -/

/-- The characters are digits, after at most one plus sign, and the digits stand for `n`. -/
inductive Numbers : List Char → Nat → Prop
  | unsigned {digits : List Char} (hne : digits ≠ []) (hdigits : ∀ c ∈ digits, c.isDigit) :
      Numbers digits (Nat.ofDigitChars 10 digits 0)
  | signed {digits : List Char} (hne : digits ≠ []) (hdigits : ∀ c ∈ digits, c.isDigit) :
      Numbers ('+' :: digits) (Nat.ofDigitChars 10 digits 0)

/-- The text is that of a count, between blanks. -/
def SpellsCount (text : String) (n : Nat) : Prop :=
  ∃ core, Text.Trims text.toList core ∧ Numbers core n ∧ 1 ≤ n ∧ n ≤ 2 ^ 64 - 1

/-- The characters without a plus sign in front. -/
def withoutPlus : List Char → List Char
  | '+' :: rest => rest
  | chars => chars

theorem numbers_iff {chars : List Char} {n : Nat} :
    Numbers chars n ↔ Text.numeral? (withoutPlus chars) = some n := by
  rw [Text.numeral?_eq_some_iff]
  fun_cases withoutPlus chars with
  | case1 rest =>
      constructor
      · intro h
        cases h with
        | unsigned _ hdigits => exact absurd (hdigits '+' List.mem_cons_self) (by decide)
        | signed hne hdigits => exact ⟨hne, hdigits, rfl⟩
      · rintro ⟨hne, hdigits, rfl⟩
        exact .signed hne hdigits
  | case2 _ hplus =>
      constructor
      · intro h
        cases h with
        | unsigned hne hdigits => exact ⟨hne, hdigits, rfl⟩
        | signed => exact absurd rfl (hplus _)
      · rintro ⟨hne, hdigits, rfl⟩
        exact .unsigned hne hdigits

theorem count?_eq (text : String) :
    count? text =
      (Text.numeral? (withoutPlus (Text.trim text.toList))).bind fun n =>
        if 1 ≤ n ∧ n ≤ 2 ^ 64 - 1 then some n else none := by
  simp only [count?]
  split
  · next n hread =>
      have hnumeral : Text.numeral? (withoutPlus (Text.trim text.toList)) = some n := hread
      rw [hnumeral]
      rfl
  · next hread =>
      have hnumeral : Text.numeral? (withoutPlus (Text.trim text.toList)) = none := hread
      rw [hnumeral]
      rfl

theorem count?_eq_some_iff {text : String} {n : Nat} :
    count? text = some n ↔ SpellsCount text n := by
  rw [count?_eq, Option.bind_eq_some_iff]
  constructor
  · rintro ⟨number, hnumber, hchecked⟩
    obtain ⟨hrange, hsame⟩ := Option.ite_none_right_eq_some.1 hchecked
    obtain rfl := Option.some.inj hsame
    exact ⟨_, Text.trims_trim _, numbers_iff.2 hnumber, hrange⟩
  · rintro ⟨core, hcore, hnumbers, hrange⟩
    obtain rfl := hcore.trim_eq
    exact ⟨n, numbers_iff.1 hnumbers, if_pos hrange⟩

example : count? "\u2003+007\n" = some 7 ∧ count? "++7" = none ∧ count? "0" = none := by decide

/-! ## Flags -/

/-- The words for a flag. -/
def wordsFor : Bool → List String
  | true => ["1", "true", "yes", "on"]
  | false => ["0", "false", "no", "off"]

/-- The text is a word for the flag, in letters of either case, between blanks. -/
def SpellsFlag (text : String) (flag : Bool) : Prop :=
  ∃ core, Text.Trims text.toList core ∧ String.ofList (core.map Char.toLower) ∈ wordsFor flag

theorem flag?_eq_some_iff {text : String} {flag : Bool} :
    flag? text = some flag ↔ SpellsFlag text flag := by
  have hspells : SpellsFlag text flag ↔
      String.ofList ((Text.trim text.toList).map Char.toLower) ∈ wordsFor flag := by
    simp [SpellsFlag, Text.trims_iff]
  have hdistinct : ∀ word ∈ wordsFor true, word ∉ wordsFor false := by decide
  rw [hspells]
  simp only [flag?]
  generalize String.ofList ((Text.trim text.toList).map Char.toLower) = word
  show (if word ∈ wordsFor true then some true else if word ∈ wordsFor false then some false
    else none) = some flag ↔ word ∈ wordsFor flag
  split
  · next htrue =>
      cases flag with
      | true => simp [htrue]
      | false => simp [hdistinct word htrue]
  · next htrue =>
      cases flag with
      | true => simp [htrue]
      | false => simp

/-! ## Variables -/

/-- What is read from a variable: the default if it is absent, and otherwise what its text
spells. -/
inductive Yields {α : Type} (Spells : String → α → Prop) (default : α) : Option String → α → Prop
  | absent : Yields Spells default none default
  | present {text : String} {value : α} (h : Spells text value) :
      Yields Spells default (some text) value

/-- A variable, and the texts that it may hold. -/
structure Variable where
  name : String
  Accepts : String → Prop

/-- The variables in the order in which they are read. -/
def readingOrder : List Variable :=
  [⟨maxDepthName, fun text => ∃ n, SpellsCount text n⟩,
    ⟨maxExpansionsName, fun text => ∃ n, SpellsCount text n⟩,
    ⟨parallelName, fun text => ∃ flag, SpellsFlag text flag⟩]

/-- The variable is absent, or it holds a text that it may hold. -/
def Variable.Fits (lookup : String → Option String) (v : Variable) : Prop :=
  ∀ text ∈ lookup v.name, v.Accepts text

/-- The error is that the first of the variables that do not fit holds the text it holds. -/
inductive FirstMisfit (lookup : String → Option String) : List Variable → SettingsError → Prop
  | here {v : Variable} {rest : List Variable} {text : String} (htext : lookup v.name = some text)
      (h : ¬ v.Accepts text) : FirstMisfit lookup (v :: rest) (.invalid v.name text)
  | later {v : Variable} {rest : List Variable} {error : SettingsError} (hfits : v.Fits lookup)
      (h : FirstMisfit lookup rest error) : FirstMisfit lookup (v :: rest) error

variable {α β : Type} {lookup : String → Option String} {name : String} {default : α}
  {read? : String → Option α} {Spells : String → α → Prop} {rest : List Variable}
  {next : α → Except SettingsError β}

theorem fits_of_yields {value : α} (h : Yields Spells default (lookup name) value) :
    Variable.Fits lookup ⟨name, fun text => ∃ value, Spells text value⟩ := by
  intro text htext
  rw [Option.mem_def.1 htext] at h
  cases h with
  | present hspells => exact ⟨value, hspells⟩

/-- Reading a variable gives the one value that it yields, or reports that its text spells
none. -/
theorem readWith_cases (lookup : String → Option String) (name : String) (default : α)
    (hread : ∀ text value, read? text = some value ↔ Spells text value) :
    (∃ value, readWith read? lookup name default = .ok value ∧
      ∀ other, Yields Spells default (lookup name) other ↔ other = value) ∨
    ∃ text, lookup name = some text ∧ (¬ ∃ value, Spells text value) ∧
      readWith read? lookup name default = .error (.invalid name text) := by
  rw [readWith]
  cases lookup name with
  | none =>
      refine .inl ⟨default, rfl, fun other => ⟨fun h => ?_, ?_⟩⟩
      · cases h
        rfl
      · rintro rfl
        exact .absent
  | some text =>
      dsimp only
      cases hvalue : read? text with
      | none =>
          refine .inr ⟨text, rfl, ?_, rfl⟩
          rintro ⟨value, hspells⟩
          rw [← hread, hvalue] at hspells
          cases hspells
      | some value =>
          refine .inl ⟨value, rfl, fun other => ⟨fun h => ?_, ?_⟩⟩
          · cases h with
            | present hspells =>
                rw [← hread, hvalue] at hspells
                exact (Option.some.inj hspells).symm
          · rintro rfl
            exact .present ((hread text other).1 hvalue)

theorem readWith_bind_eq_ok_iff
    (hread : ∀ text value, read? text = some value ↔ Spells text value) {result : β} :
    (readWith read? lookup name default >>= next) = .ok result ↔
      ∃ value, Yields Spells default (lookup name) value ∧ next value = .ok result := by
  obtain ⟨value, hvalue, hyields⟩ | ⟨text, htext, hspells, herror⟩ :=
    readWith_cases lookup name default hread
  · simp only [bind_of_eq_ok hvalue, hyields, exists_eq_left]
  · rw [bind_of_eq_error herror, htext]
    refine ⟨nofun, fun ⟨value, hyields, _⟩ => ?_⟩
    cases hyields with
    | present h => exact absurd ⟨value, h⟩ hspells

/-- The attempt fails exactly if one of the variables does not fit, and reports the first
that does not. -/
def Reports (lookup : String → Option String) (order : List Variable)
    (attempt : Except SettingsError α) : Prop :=
  ∀ error, attempt = .error error ↔ FirstMisfit lookup order error

theorem reports_ok (value : α) : Reports lookup [] (.ok value : Except SettingsError α) :=
  fun _ => ⟨nofun, nofun⟩

theorem Reports.readWith_bind
    (hread : ∀ text value, read? text = some value ↔ Spells text value)
    (hnext : ∀ value, Reports lookup rest (next value)) :
    Reports lookup (⟨name, fun text => ∃ value, Spells text value⟩ :: rest)
      (readWith read? lookup name default >>= next) := by
  intro error
  obtain ⟨value, hvalue, hyields⟩ | ⟨text, htext, hspells, herror⟩ :=
    readWith_cases lookup name default hread
  · have hfits := fits_of_yields ((hyields value).2 rfl)
    rw [bind_of_eq_ok hvalue, hnext value error]
    refine ⟨.later hfits, fun h => ?_⟩
    cases h with
    | here htext hspells => exact absurd (hfits _ htext) hspells
    | later _ h => exact h
  · rw [bind_of_eq_error herror, Except.error.injEq]
    constructor
    · rintro rfl
      exact .here htext hspells
    · intro h
      cases h with
      | here htext' => rw [Option.some.inj (htext.symm.trans htext')]
      | later hfits => exact absurd (hfits text htext) hspells

/-! ## Reading all of them -/

theorem read_eq (lookup : String → Option String) :
    read lookup =
      readWith count? lookup maxDepthName ({} : Settings).maxDepth >>= fun maxDepth =>
      readWith count? lookup maxExpansionsName ({} : Settings).maxExpansions >>= fun maxExpansions =>
      readWith flag? lookup parallelName ({} : Settings).parallel >>= fun parallel =>
      .ok { maxDepth, maxExpansions, parallel } :=
  rfl

theorem read_eq_ok_iff {settings : Settings} :
    read lookup = .ok settings ↔
      Yields SpellsCount ({} : Settings).maxDepth (lookup maxDepthName) settings.maxDepth ∧
      Yields SpellsCount ({} : Settings).maxExpansions (lookup maxExpansionsName)
        settings.maxExpansions ∧
      Yields SpellsFlag ({} : Settings).parallel (lookup parallelName) settings.parallel := by
  simp only [read_eq, readWith_bind_eq_ok_iff (fun _ _ => count?_eq_some_iff),
    readWith_bind_eq_ok_iff (fun _ _ => flag?_eq_some_iff), Except.ok.injEq]
  constructor
  · rintro ⟨maxDepth, hdepth, maxExpansions, hexpansions, parallel, hparallel, rfl⟩
    exact ⟨hdepth, hexpansions, hparallel⟩
  · rintro ⟨hdepth, hexpansions, hparallel⟩
    exact ⟨_, hdepth, _, hexpansions, _, hparallel, rfl⟩

theorem reports_read (lookup : String → Option String) :
    Reports lookup readingOrder (read lookup) := by
  rw [read_eq]
  refine .readWith_bind (fun _ _ => count?_eq_some_iff) fun maxDepth => ?_
  refine .readWith_bind (fun _ _ => count?_eq_some_iff) fun maxExpansions => ?_
  exact .readWith_bind (fun _ _ => flag?_eq_some_iff) fun parallel => reports_ok _

theorem FirstMisfit.exists_not_fits {order : List Variable} {error : SettingsError}
    (h : FirstMisfit lookup order error) : ∃ v ∈ order, ¬ v.Fits lookup := by
  induction h with
  | here htext haccepts => exact ⟨_, List.mem_cons_self, fun hfits => haccepts (hfits _ htext)⟩
  | later _ _ ih =>
      obtain ⟨v, hmem, hfits⟩ := ih
      exact ⟨v, List.mem_cons_of_mem _ hmem, hfits⟩

/-- Settings are read exactly from the texts of counts and flags. Reading succeeds exactly if
each variable that is present holds such a text. Each setting is then what its variable
spells, or the default. Otherwise the first variable that holds another text is reported,
with the text as it is. -/
theorem read_exactly (lookup : String → Option String) :
    ((∃ settings, read lookup = .ok settings) ↔ ∀ v ∈ readingOrder, v.Fits lookup) ∧
    (∀ settings, read lookup = .ok settings ↔
      Yields SpellsCount ({} : Settings).maxDepth (lookup maxDepthName) settings.maxDepth ∧
      Yields SpellsCount ({} : Settings).maxExpansions (lookup maxExpansionsName)
        settings.maxExpansions ∧
      Yields SpellsFlag ({} : Settings).parallel (lookup parallelName) settings.parallel) ∧
    ∀ error, read lookup = .error error ↔ FirstMisfit lookup readingOrder error := by
  refine ⟨⟨?_, fun hfits => ?_⟩, fun settings => read_eq_ok_iff, reports_read lookup⟩
  · rintro ⟨settings, hread⟩
    obtain ⟨hdepth, hexpansions, hparallel⟩ := read_eq_ok_iff.1 hread
    simp only [readingOrder, List.forall_mem_cons]
    exact ⟨fits_of_yields hdepth, fits_of_yields hexpansions, fits_of_yields hparallel, nofun⟩
  · cases hread : read lookup with
    | ok settings => exact ⟨settings, rfl⟩
    | error error =>
        obtain ⟨v, hmem, hmisfit⟩ := ((reports_read lookup error).1 hread).exists_not_fits
        exact absurd (hfits v hmem) hmisfit

end Settings

end ConceptExpansion
