/-
# Texts and their bytes are ordered alike

Texts are compared by code point. UTF-8 was laid out so that the bytes compare the same
way: of two characters the one with the larger code point has the larger bytes, at the
first place where they part, and neither encoding is an initial part of the other. So a
comparison of texts may be read as one of their bytes.
-/

import Mathlib

namespace ConceptExpansion.Text

/-- The bytes of a text in UTF-8. -/
def bytes (text : String) : List UInt8 :=
  text.toUTF8.data.toList

theorem bytes_eq_flatMap (text : String) :
    bytes text = text.toList.flatMap String.utf8EncodeChar := by
  rw [bytes, String.toUTF8, ← String.utf8Encode_toList, List.utf8Encode,
    List.toList_data_toByteArray]

/-- Of two encoded characters the larger one wins, whatever comes after them. -/
theorem utf8EncodeChar_append_lt {c d : Char} (h : c < d) (after after' : List UInt8) :
    String.utf8EncodeChar c ++ after < String.utf8EncodeChar d ++ after' := by
  have hval : c.val.toNat < d.val.toNat := h
  have hd : d.val.toNat < 0x110000 := by
    have hvalid := d.valid
    simp only [UInt32.isValidChar, Nat.isValidChar] at hvalid
    omega
  unfold String.utf8EncodeChar
  generalize c.val.toNat = v at *
  generalize d.val.toNat = w at *
  dsimp only
  -- Encodings of different lengths part at the first byte. Those of one length are the digits
  -- of the code points to the base 64, so they part where the digits do.
  split_ifs <;>
    simp only [List.cons_append, List.nil_append, List.cons_lt_cons_iff, UInt8.lt_iff_toNat_lt,
      ← UInt8.toNat_inj, UInt8.toNat_ofNat'] <;>
    simp (disch := omega) only [Nat.mod_eq_of_lt]
  all_goals omega

theorem flatMap_utf8EncodeChar_lt {cs ds : List Char} (h : cs < ds) :
    cs.flatMap String.utf8EncodeChar < ds.flatMap String.utf8EncodeChar := by
  induction cs generalizing ds with
  | nil =>
      cases ds with
      | nil => exact absurd h (List.lt_irrefl [])
      | cons d ds =>
          obtain ⟨first, rest, hencoded⟩ :=
            List.exists_cons_of_length_pos (l := String.utf8EncodeChar d) (by simp [d.utf8Size_pos])
          rw [List.flatMap_cons, hencoded]
          exact List.nil_lt_cons _ _
  | cons c cs ih =>
      cases ds with
      | nil => exact absurd h (List.not_lt_nil _)
      | cons d ds =>
          rw [List.flatMap_cons, List.flatMap_cons]
          rcases List.cons_lt_cons_iff.1 h with hlt | ⟨rfl, hlt⟩
          · exact utf8EncodeChar_append_lt hlt _ _
          · exact List.append_left_lt (ih hlt)

theorem bytes_lt_of_lt {s t : String} (h : s < t) : bytes s < bytes t := by
  rw [bytes_eq_flatMap, bytes_eq_flatMap]
  exact flatMap_utf8EncodeChar_lt (String.lt_iff_toList_lt.1 h)

/-- Texts are ordered as their bytes are. -/
theorem bytes_lt_bytes_iff {s t : String} : bytes s < bytes t ↔ s < t := by
  refine ⟨fun h => ?_, bytes_lt_of_lt⟩
  rcases lt_trichotomy s t with hlt | rfl | hgt
  · exact hlt
  · exact absurd h (List.lt_irrefl _)
  · exact absurd h (List.lt_asymm (bytes_lt_of_lt hgt))

/-- To compare texts is to compare their bytes. -/
theorem compare_eq_lt_iff {s t : String} : compare s t = .lt ↔ bytes s < bytes t :=
  compare_lt_iff_lt.trans bytes_lt_bytes_iff.symm

example : bytes "aé€😀" =
    [0x61, 0xc3, 0xa9, 0xe2, 0x82, 0xac, 0xf0, 0x9f, 0x98, 0x80] := by decide

end ConceptExpansion.Text
