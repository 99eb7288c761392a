import Mathlib.Init

/-!
# UTF-16 strings

Strings of 16-bit units, as some languages have them: a character is one unit or a pair of
surrogates, and a string may hold surrogates that are no such pair and is then not text
(`readUtf16`). What text is written as is read back (`readUtf16_utf16`).
-/

namespace Np2ptp.Lib

/-- A string of units. -/
abbrev Units := List UInt16

/-- The units of a character. -/
def unitsOfChar (c : Char) : Units :=
  if c.toNat < 0x10000 then [UInt16.ofNat c.toNat]
  else
    [UInt16.ofNat (0xD800 + (c.toNat - 0x10000) / 0x400),
      UInt16.ofNat (0xDC00 + (c.toNat - 0x10000) % 0x400)]

/-- The units of a text. -/
def utf16 (s : String) : Units := s.toList.flatMap unitsOfChar

/-- A unit that begins a pair. -/
def leading (u : UInt16) : Bool := decide (0xD800 ≤ u.toNat ∧ u.toNat < 0xDC00)

/-- A unit that ends a pair. -/
def trailing (u : UInt16) : Bool := decide (0xDC00 ≤ u.toNat ∧ u.toNat < 0xE000)

/-- The characters of a string, if it is text. -/
def charsOfUnits : Units → Option (List Char)
  | [] => some []
  | u :: rest =>
    if leading u then
      match rest with
      | [] => none
      | v :: rest =>
        if trailing v then
          (charsOfUnits rest).map
            (Char.ofNat (0x10000 + (u.toNat - 0xD800) * 0x400 + (v.toNat - 0xDC00)) :: ·)
        else none
    else if trailing u then none
    else (charsOfUnits rest).map (Char.ofNat u.toNat :: ·)

/-- The text that a string is, if any. -/
def readUtf16 (units : Units) : Option String := (charsOfUnits units).map String.ofList

theorem charsOfUnits_alone {u : UInt16} (hleading : leading u = false)
    (htrailing : trailing u = false) (rest : Units) :
    charsOfUnits (u :: rest) = (charsOfUnits rest).map (Char.ofNat u.toNat :: ·) := by
  rw [charsOfUnits.eq_def]
  simp only [hleading, htrailing, Bool.false_eq_true, if_false]

theorem charsOfUnits_pair {u v : UInt16} (hleading : leading u = true)
    (htrailing : trailing v = true) (rest : Units) : charsOfUnits (u :: v :: rest) =
      (charsOfUnits rest).map
        (Char.ofNat (0x10000 + (u.toNat - 0xD800) * 0x400 + (v.toNat - 0xDC00)) :: ·) := by
  rw [charsOfUnits.eq_def]
  simp only [hleading, htrailing, if_true]

/-- A character is none of the surrogates. -/
theorem toNat_char (c : Char) :
    c.toNat < 0xD800 ∨ 0xE000 ≤ c.toNat ∧ c.toNat < 0x110000 := by
  rcases c.valid with h | ⟨hlo, hhi⟩
  · exact .inl h
  · exact .inr ⟨hlo, hhi⟩

/-- The units of a character are read as it, whatever follows. -/
theorem charsOfUnits_unitsOfChar (c : Char) (rest : Units) :
    charsOfUnits (unitsOfChar c ++ rest) = (charsOfUnits rest).map (c :: ·) := by
  have hvalid := toNat_char c
  rw [unitsOfChar]
  split
  · next hone =>
    have hunit : (UInt16.ofNat c.toNat).toNat = c.toNat := by
      rw [UInt16.toNat_ofNat', Nat.mod_eq_of_lt hone]
    have hleading : leading (UInt16.ofNat c.toNat) = false := by
      rw [leading, hunit]
      exact decide_eq_false (by omega)
    have htrailing : trailing (UInt16.ofNat c.toNat) = false := by
      rw [trailing, hunit]
      exact decide_eq_false (by omega)
    rw [List.singleton_append, charsOfUnits_alone hleading htrailing, hunit, Char.ofNat_toNat]
  · next htwo =>
    have hhigh : (0xD800 + (c.toNat - 0x10000) / 0x400) < 2 ^ 16 := by omega
    have hlow : (0xDC00 + (c.toNat - 0x10000) % 0x400) < 2 ^ 16 := by omega
    have hu : (UInt16.ofNat (0xD800 + (c.toNat - 0x10000) / 0x400)).toNat =
        0xD800 + (c.toNat - 0x10000) / 0x400 := by
      rw [UInt16.toNat_ofNat', Nat.mod_eq_of_lt hhigh]
    have hv : (UInt16.ofNat (0xDC00 + (c.toNat - 0x10000) % 0x400)).toNat =
        0xDC00 + (c.toNat - 0x10000) % 0x400 := by
      rw [UInt16.toNat_ofNat', Nat.mod_eq_of_lt hlow]
    have hleading : leading (UInt16.ofNat (0xD800 + (c.toNat - 0x10000) / 0x400)) = true := by
      rw [leading, hu]
      exact decide_eq_true (by omega)
    have htrailing : trailing (UInt16.ofNat (0xDC00 + (c.toNat - 0x10000) % 0x400)) = true := by
      rw [trailing, hv]
      exact decide_eq_true (by omega)
    have hpair : 0x10000 + (0xD800 + (c.toNat - 0x10000) / 0x400 - 0xD800) * 0x400 +
        (0xDC00 + (c.toNat - 0x10000) % 0x400 - 0xDC00) = c.toNat := by
      omega
    rw [List.cons_append, List.singleton_append, charsOfUnits_pair hleading htrailing, hu, hv,
      hpair, Char.ofNat_toNat]

/-- What a text is written as is read back. -/
theorem readUtf16_utf16 (s : String) : readUtf16 (utf16 s) = some s := by
  have hchars : ∀ cs : List Char, charsOfUnits (cs.flatMap unitsOfChar) = some cs := by
    intro cs
    induction cs with
    | nil => rfl
    | cons c cs ih => rw [List.flatMap_cons, charsOfUnits_unitsOfChar, ih]; rfl
  rw [readUtf16, utf16, hchars, Option.map_some, String.ofList_toList]

/-- Only the empty text is written as nothing. -/
theorem utf16_ne_nil {s : String} (hs : s ≠ "") : utf16 s ≠ [] := by
  intro hnil
  have hread := readUtf16_utf16 s
  rw [hnil] at hread
  exact hs (Option.some.inj hread).symm

end Np2ptp.Lib
