/-
# A line reads back

A tree that is written on one line is read back as it was. Nothing about a string has
to be assumed, not even that it spells a text. Numbers have to be integers: a decimal
keeps the literal that was read, and a tree made by hand may hold any text there.

A reader takes a tree off the front of a longer text, so what is read back is always
followed by something. Strings and brackets say themselves where they end. A number does
not, but after a tree there is nothing left, or a comma or a closing bracket comes.
-/

import Mathlib
import ConceptExpansion.Json.Reader
import ConceptExpansion.Json.Writer
import ConceptExpansion.Proofs.Text.Decimal

namespace ConceptExpansion

namespace Json

/-! ## Strings -/

theorem unit?_hexPair {n : Nat} (h : n < 0x20) :
    unit? '0' '0' (n / 16).digitChar (n % 16).digitChar = some n := by
  interval_cases n <;> rfl

theorem ofUnit_of_lt {c : Char} (h : c.toNat < 0x20) : Piece.ofUnit c.toNat = .char c := by
  have hnot : ¬(0xd800 ≤ c.toNat ∧ c.toNat < 0xe000) := by omega
  rw [Piece.ofUnit, if_neg hnot, Char.ofNat_toNat]

/-! ### The forms of a piece -/

theorem readPieces_escaped {letter c : Char} (hletter : letter ≠ 'u')
    (h : escaped? letter = some c) (text : List Char) :
    readPieces ('\\' :: letter :: text) =
      (readPieces text).map fun (pieces, rest) => (.char c :: pieces, rest) := by
  rw [readPieces, h]
  · cases readPieces text <;> rfl
  · simp_all

theorem readPieces_unit {a b c d : Char} {unit : Nat} (h : unit? a b c d = some unit)
    (text : List Char) :
    readPieces ('\\' :: 'u' :: a :: b :: c :: d :: text) =
      (readPieces text).map fun (pieces, rest) => (.ofUnit unit :: pieces, rest) := by
  rw [readPieces, h]
  cases readPieces text <;> rfl

theorem readPieces_plain {c : Char} (hquote : c ≠ '"') (hbackslash : c ≠ '\\')
    (hcontrol : ¬c.toNat < 0x20) (text : List Char) :
    readPieces (c :: text) =
      (readPieces text).map fun (pieces, rest) => (.char c :: pieces, rest) := by
  rw [readPieces, if_neg (by simp [hcontrol, hbackslash])]
  · cases readPieces text <;> rfl
  all_goals simp_all

/-- A character is read back in whichever way it was written. -/
theorem readPieces_writeChar (c : Char) (text : List Char) :
    readPieces (writeChar c ++ text) =
      (readPieces text).map fun (pieces, rest) => (.char c :: pieces, rest) := by
  fun_cases writeChar c with
  | case8 _ _ _ _ _ _ _ hcontrol =>
      have hunit := readPieces_unit (unit?_hexPair hcontrol) text
      rwa [ofUnit_of_lt hcontrol] at hunit
  | case9 hquote hbackslash _ _ _ _ _ hcontrol =>
      exact readPieces_plain hquote hbackslash hcontrol text
  | _ =>
      subst_vars
      exact readPieces_escaped (by decide) rfl text

theorem readPieces_flatMap_writeChar (chars text : List Char) :
    readPieces (chars.flatMap writeChar ++ '"' :: text) = some (chars.map .char, text) := by
  induction chars with
  | nil => rfl
  | cons c chars ih =>
      rw [List.flatMap_cons, List.append_assoc, readPieces_writeChar, ih]
      rfl

theorem spell_map_char (chars : List Char) : spell (chars.map .char) = some chars := by
  induction chars with
  | nil => rfl
  | cons c chars ih => rw [List.map_cons, spell, ih, Option.map_some]

/-- A string is read back up to its closing quote, whether it spells a text or not. -/
theorem readString_writeInside (s : Option String) (text : List Char) :
    readString (writeInside s ++ '"' :: text) = some (s, text) := by
  cases s with
  | none =>
      have hunit : unit? 'd' '8' '0' '0' = some 0xd800 := by decide
      have hpieces := readPieces_unit hunit ('"' :: text)
      rw [Piece.ofUnit, if_pos (by decide)] at hpieces
      show (readPieces ('\\' :: 'u' :: 'd' :: '8' :: '0' :: '0' :: '"' :: text)).map _ = _
      rw [hpieces]
      rfl
  | some s =>
      simp only [readString, writeInside, readPieces_flatMap_writeChar, Option.map_some,
        spell_map_char, String.ofList_toList]

/-! ## Numbers -/

/-- What may come after a tree: nothing, a comma or a closing bracket. -/
def Follows (text : List Char) : Prop :=
  ∀ c ∈ text.head?, c = ',' ∨ c = ']' ∨ c = '\x7d'

section Follows

variable {text : List Char}

/-- Digits end where a text begins that may come after a tree. -/
theorem Follows.digits (h : Follows text) {digits : List Char}
    (hdigits : ∀ c ∈ digits, c.isDigit) :
    (digits ++ text).takeWhile Char.isDigit = digits ∧
      (digits ++ text).dropWhile Char.isDigit = text := by
  rw [List.takeWhile_append_of_pos hdigits, List.dropWhile_append_of_pos hdigits]
  cases text with
  | nil => simp
  | cons c text =>
      have hc : c.isDigit = false := by rcases h c rfl with rfl | rfl | rfl <;> rfl
      simp [hc]

theorem Follows.readFraction (h : Follows text) : readFraction text = some ([], text) := by
  rw [Json.readFraction]
  rintro rest rfl
  simpa using h '.' rfl

theorem Follows.readExponent (h : Follows text) : readExponent text = some ([], text) := by
  cases text with
  | nil => rfl
  | cons c text =>
      rw [Json.readExponent, if_neg]
      rcases h c rfl with rfl | rfl | rfl <;> decide

theorem readMagnitude_toDigits (negative : Bool) (magnitude : Nat) (h : Follows text) :
    readMagnitude negative (Nat.toDigits 10 magnitude ++ text) =
      some (.integer negative magnitude, text) := by
  obtain ⟨htake, hdrop⟩ := h.digits fun _ => Text.isDigit_of_mem_toDigits (n := magnitude)
  have hzero : ¬(1 < (Nat.toDigits 10 magnitude).length ∧
      (Nat.toDigits 10 magnitude).head? = some '0') := by
    rintro ⟨hlength, hhead⟩
    obtain rfl : magnitude = 0 := by
      by_contra hmagnitude
      exact Text.head?_toDigits magnitude hmagnitude hhead
    exact absurd hlength (by decide)
  rw [readMagnitude, htake, hdrop, Text.numeral?_toDigits]
  simp [hzero, h.readFraction, h.readExponent]

/-- An integer of any size is read back, minus zero included. -/
theorem readNumber_writeNumber (negative : Bool) (magnitude : Nat) (h : Follows text) :
    readNumber (writeNumber (.integer negative magnitude) ++ text) =
      some (.integer negative magnitude, text) := by
  have hmagnitude := readMagnitude_toDigits negative magnitude h
  cases negative with
  | true => exact hmagnitude
  | false =>
      obtain ⟨c, digits, hdigits, hc⟩ := Text.exists_toDigits magnitude
      refine Eq.trans ?_ hmagnitude
      show readNumber (Nat.toDigits 10 magnitude ++ text) = _
      rw [readNumber]
      -- The other way to read a number takes a minus sign, and a digit is none.
      rw [hdigits]
      rintro rest hminus
      rw [(List.cons.inj hminus).1] at hc
      exact absurd hc (by decide)

end Follows

/-! ## What begins a tree -/

/-- A tree whose numbers are all integers. -/
inductive Integral : Json → Prop
  | null : Integral .null
  | bool (b : Bool) : Integral (.bool b)
  | integer (negative : Bool) (magnitude : Nat) : Integral (.number (.integer negative magnitude))
  | string (s : Option String) : Integral (.string s)
  | array {items : List Json} (h : ∀ item ∈ items, Integral item) : Integral (.array items)
  | object {members : List (Option String × Json)} (h : ∀ member ∈ members, Integral member.2) :
      Integral (.object members)

theorem skipBlanks_cons {c : Char} (h : isBlank c = false) (text : List Char) :
    skipBlanks (c :: text) = c :: text := by
  rw [skipBlanks, List.dropWhile_cons_of_neg (by simp [h])]

theorem exists_writeNumber (negative : Bool) (magnitude : Nat) :
    ∃ c rest, writeNumber (.integer negative magnitude) = c :: rest ∧ (c = '-' ∨ c.isDigit) := by
  cases negative with
  | true => exact ⟨_, _, rfl, .inl rfl⟩
  | false =>
      obtain ⟨c, rest, hdigits, hc⟩ := Text.exists_toDigits magnitude
      exact ⟨c, rest, hdigits, .inr hc⟩

theorem isBlank_of_numeral {c : Char} (h : c = '-' ∨ c.isDigit) : isBlank c = false := by
  rw [Bool.eq_false_iff]
  intro hblank
  simp only [isBlank, Bool.or_eq_true, decide_eq_true_eq] at hblank
  rcases hblank with ((rfl | rfl) | rfl) | rfl <;> exact absurd h (by decide)

/-- A written tree begins with something that is neither a blank nor the end of an
array. -/
theorem Integral.exists_write {json : Json} (h : json.Integral) :
    ∃ c text, json.write = c :: text ∧ isBlank c = false ∧ c ≠ ']' := by
  cases h with
  | null => exact ⟨_, _, rfl, rfl, by decide⟩
  | bool b => cases b <;> exact ⟨_, _, rfl, rfl, by decide⟩
  | integer negative magnitude =>
      obtain ⟨c, rest, hwrite, hc⟩ := exists_writeNumber negative magnitude
      refine ⟨c, rest, hwrite, isBlank_of_numeral hc, ?_⟩
      rintro rfl
      exact absurd hc (by decide)
  | string s => exact ⟨_, _, rfl, rfl, by decide⟩
  | @array items => cases items <;> exact ⟨_, _, rfl, rfl, by decide⟩
  | @object members =>
      match members with
      | [] => exact ⟨_, _, rfl, rfl, by decide⟩
      | _ :: _ => exact ⟨_, _, rfl, rfl, by decide⟩

/-! ## One step of the reader

Each kind of tree is told by its first character, and inside an array or an object the
character after an item or a member tells whether another one follows. -/

theorem readTree_number (steps : Nat) {c : Char} (h : c = '-' ∨ c.isDigit) (text : List Char) :
    readTree (steps + 1) (c :: text) =
      (readNumber (c :: text)).map fun (n, rest) => (.number n, rest) := by
  rw [readTree, skipBlanks_cons (isBlank_of_numeral h)]
  split
  case h_7 => rfl
  all_goals simp_all

theorem readTree_string (steps : Nat) (text : List Char) :
    readTree (steps + 1) ('"' :: text) =
      (readString text).map fun (s, rest) => (.string s, rest) := by
  rw [readTree, skipBlanks_cons rfl]
  rfl

/-- Of the ways to go on, the bracket leaves the one for an array, and the first item the one
for an array with items. -/
theorem readTree_array (steps : Nat) {c : Char} (hblank : isBlank c = false) (hend : c ≠ ']')
    (text : List Char) :
    readTree (steps + 1) ('[' :: c :: text) =
      (readItems steps (c :: text)).map fun (items, rest) => (.array items, rest) := by
  rw [readTree, skipBlanks_cons rfl]
  split
  case h_5 rest heq =>
      obtain rfl := (List.cons.inj heq).2
      rw [skipBlanks_cons hblank]
      split
      · simp_all
      · rfl
  all_goals simp_all

theorem readTree_object (steps : Nat) (text : List Char) :
    readTree (steps + 1) ('\x7b' :: '"' :: text) =
      (readMembers steps ('"' :: text)).map fun (members, rest) => (.object members, rest) := by
  rw [readTree, skipBlanks_cons rfl]
  split
  case h_6 rest heq =>
      obtain rfl := (List.cons.inj heq).2
      rw [skipBlanks_cons rfl]
      rfl
  all_goals simp_all

section Step

variable {steps : Nat} {text more rest : List Char} {item : Json} {items : List Json}
  {name : Option String} {members : List (Option String × Json)}

theorem readItems_last (h : readTree steps text = some (item, ']' :: rest)) :
    readItems (steps + 1) text = some ([item], rest) := by
  rw [readItems, h]
  rfl

theorem readItems_cons (h : readTree steps text = some (item, ',' :: more))
    (hmore : readItems steps more = some (items, rest)) :
    readItems (steps + 1) text = some (item :: items, rest) := by
  rw [readItems, h]
  show (readItems steps more).bind _ = _
  rw [hmore]
  rfl

/-- A written name is read, and the value of the member comes next. -/
theorem readMembers_writeString (steps : Nat) (name : Option String) (text : List Char) :
    readMembers (steps + 1) (writeString name ++ ':' :: text) = (do
      let (item, rest) ← readTree steps text
      match skipBlanks rest with
      | ',' :: rest =>
        let (members, rest) ← readMembers steps rest
        return ((name, item) :: members, rest)
      | '\x7d' :: rest => return ([(name, item)], rest)
      | _ => none) := by
  have hname : writeString name ++ ':' :: text =
      '"' :: (writeInside name ++ '"' :: ':' :: text) := by
    simp [writeString]
  rw [hname, readMembers, skipBlanks_cons rfl]
  show (readString (writeInside name ++ '"' :: ':' :: text)).bind _ = _
  rw [readString_writeInside]
  rfl

theorem readMembers_last (h : readTree steps text = some (item, '\x7d' :: rest)) :
    readMembers (steps + 1) (writeString name ++ ':' :: text) = some ([(name, item)], rest) := by
  rw [readMembers_writeString, h]
  rfl

theorem readMembers_cons (h : readTree steps text = some (item, ',' :: more))
    (hmore : readMembers steps more = some (members, rest)) :
    readMembers (steps + 1) (writeString name ++ ':' :: text) =
      some ((name, item) :: members, rest) := by
  rw [readMembers_writeString, h]
  show (readMembers steps more).bind _ = _
  rw [hmore]
  rfl

end Step

/-! ## Trees

Every two steps of the reader use up a character of the line, so twice the length of the
line is enough of them. -/

/-- The tree is read back off the front of any text that may go on after it. -/
def ReadsBack (json : Json) : Prop :=
  ∀ {steps : Nat} {text : List Char}, 2 * json.write.length ≤ steps + 1 → Follows text →
    readTree (steps + 1) (json.write ++ text) = some (json, text)

theorem follows_writeItems (items : List Json) (text : List Char) :
    Follows (writeItems items ++ text) := by
  cases items <;> simp [writeItems, Follows]

theorem follows_writeMembers (members : List (Option String × Json)) (text : List Char) :
    Follows (writeMembers members ++ text) := by
  cases members <;> simp [writeMembers, Follows]

theorem readItems_writeItems {item : Json} {items : List Json}
    (h : ∀ json ∈ item :: items, json.ReadsBack) {steps : Nat} (text : List Char)
    (hsteps : 2 * (item.write ++ writeItems items).length ≤ steps) :
    readItems steps (item.write ++ (writeItems items ++ text)) = some (item :: items, text) := by
  induction items generalizing item steps with
  | nil =>
      simp only [writeItems, List.length_append, List.length_singleton] at hsteps
      obtain ⟨steps, rfl⟩ : ∃ n, steps = n + 2 := ⟨steps - 2, by omega⟩
      exact readItems_last (h item List.mem_cons_self (by omega) (follows_writeItems [] text))
  | cons next items ih =>
      simp only [writeItems, List.length_append, List.length_cons] at hsteps
      obtain ⟨steps, rfl⟩ : ∃ n, steps = n + 2 := ⟨steps - 2, by omega⟩
      obtain ⟨hitem, hitems⟩ := List.forall_mem_cons.1 h
      have hmore := @ih next hitems (steps + 1) (by rw [List.length_append]; omega)
      rw [← List.append_assoc] at hmore
      exact readItems_cons (hitem (by omega) (follows_writeItems (next :: items) text)) hmore

theorem readMembers_writeMembers {name : Option String} {item : Json}
    {members : List (Option String × Json)}
    (h : ∀ member ∈ (name, item) :: members, member.2.ReadsBack) {steps : Nat} (text : List Char)
    (hsteps : 2 * (item.write ++ writeMembers members).length ≤ steps) :
    readMembers steps (writeString name ++ ':' :: (item.write ++ (writeMembers members ++ text))) =
      some ((name, item) :: members, text) := by
  induction members generalizing name item steps with
  | nil =>
      have hitem : item.ReadsBack := h (name, item) List.mem_cons_self
      simp only [writeMembers, List.length_append, List.length_singleton] at hsteps
      obtain ⟨steps, rfl⟩ : ∃ n, steps = n + 2 := ⟨steps - 2, by omega⟩
      exact readMembers_last (hitem (by omega) (follows_writeMembers [] text))
  | cons next members ih =>
      have hitem : item.ReadsBack := h (name, item) List.mem_cons_self
      simp only [writeMembers, List.length_append, List.length_cons] at hsteps
      obtain ⟨steps, rfl⟩ : ∃ n, steps = n + 2 := ⟨steps - 2, by omega⟩
      have hmembers : ∀ member ∈ next :: members, member.2.ReadsBack :=
        fun member hmember => h member (List.mem_cons_of_mem _ hmember)
      have hmore := @ih next.1 next.2 hmembers (steps + 1) (by rw [List.length_append]; omega)
      refine readMembers_cons (hitem (by omega) (follows_writeMembers (next :: members) text)) ?_
      simpa using hmore

/-- A tree is read back: each kind of tree from its first character on, an array and an
object from what is read back inside. -/
theorem Integral.readsBack {json : Json} (h : json.Integral) : json.ReadsBack := by
  induction h with
  | null => exact fun _ _ => rfl
  | bool b => cases b <;> exact fun _ _ => rfl
  | integer negative magnitude =>
      intro steps text hsteps htext
      obtain ⟨c, rest, hwrite, hc⟩ := exists_writeNumber negative magnitude
      have hnumber := readNumber_writeNumber negative magnitude htext
      show readTree (steps + 1) (writeNumber (.integer negative magnitude) ++ text) = _
      rw [hwrite, List.cons_append] at hnumber ⊢
      rw [readTree_number steps hc, hnumber, Option.map_some]
  | string s =>
      intro steps text hsteps htext
      show readTree (steps + 1) (('"' :: (writeInside s ++ ['"'])) ++ text) = _
      simp only [List.cons_append, List.append_assoc, List.nil_append]
      rw [readTree_string, readString_writeInside, Option.map_some]
  | @array items h ih =>
      intro steps text hsteps htext
      match items with
      | [] => rfl
      | item :: items =>
          obtain ⟨c, rest, hwrite, hblank, hend⟩ := (h item List.mem_cons_self).exists_write
          simp only [write, List.length_cons] at hsteps
          have hitems := readItems_writeItems ih text (show _ ≤ steps by omega)
          simp only [write, List.cons_append, List.append_assoc]
          rw [hwrite, List.cons_append] at hitems ⊢
          rw [readTree_array steps hblank hend, hitems, Option.map_some]
  | @object members h ih =>
      intro steps text hsteps htext
      match members with
      | [] => rfl
      | (name, item) :: members =>
          simp only [write, List.length_cons, List.length_append] at hsteps
          have hmembers := readMembers_writeMembers ih text
            (show _ ≤ steps by rw [List.length_append]; omega)
          simp only [write, writeString, List.cons_append, List.append_assoc] at hmembers ⊢
          rw [readTree_object, hmembers, Option.map_some]

/-- A line of integers only is read back as the tree that it was written from. -/
theorem Integral.read?_line {json : Json} (h : json.Integral) : read? json.line = some json := by
  have htree := @Integral.readsBack json h (2 * json.write.length + 1) [] (by omega)
    (by simp [Follows])
  rw [List.append_nil] at htree
  simp only [read?, line, String.toList_ofList, htree]
  rfl

end Json

end ConceptExpansion
