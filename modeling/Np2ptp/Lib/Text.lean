import Mathlib.Data.Nat.Notation
import Mathlib.Data.List.DropRight
import Mathlib.Tactic.IntervalCases

/-!
# Byte-text fields

The pieces of a line-oriented text format, as bytes: lower-case hexadecimal, unsigned decimal
numbers, splitting at a separator, and the end of a line. Every writer comes with its reader and
the law that the reader undoes it; the readers are the lenient ones of the Rust standard library
and of the `hex` crate (either case of a hexadecimal digit, a leading `+`, leading zeros, an
optional carriage return), so a reader accepts more than its writer produces.
-/

namespace Np2ptp.Lib

/-- A byte string. Rust's `str` is one that is valid UTF-8. -/
abbrev Bytes := List UInt8

/-- Horizontal tab. -/
def TAB : UInt8 := 9
/-- Line feed. -/
def LF : UInt8 := 10
/-- Carriage return. -/
def CR : UInt8 := 13

/-- An ASCII literal as bytes. -/
def ascii (s : String) : Bytes := s.toList.map fun c => UInt8.ofNat c.toNat

/-- A text of ASCII characters has only bytes below 128. -/
theorem ascii_lt {s : String} (h : (s.toList.all fun c => c.toNat < 128) = true) :
    ∀ b ∈ ascii s, b < 128 := by
  intro b hb
  obtain ⟨c, hc, rfl⟩ := List.mem_map.mp hb
  have hlt : c.toNat < 128 := of_decide_eq_true (List.all_eq_true.mp h c hc)
  rw [UInt8.lt_iff_toNat_lt, UInt8.toNat_ofNat_of_lt' (Nat.lt_trans hlt (by decide))]
  exact hlt

/-! ## Hexadecimal -/

/-- The lower-case hexadecimal digit of a number below 16. -/
def hexDigit (n : UInt8) : UInt8 := if n < 10 then 48 + n else 87 + n

/-- The value of a hexadecimal digit of either case. -/
def hexValue (c : UInt8) : Option UInt8 :=
  if 48 ≤ c ∧ c ≤ 57 then some (c - 48)
  else if 97 ≤ c ∧ c ≤ 102 then some (c - 87)
  else if 65 ≤ c ∧ c ≤ 70 then some (c - 55)
  else none

/-- `hex::encode`. -/
def hexEncode : Bytes → Bytes
  | [] => []
  | b :: t => hexDigit (b / 16) :: hexDigit (b % 16) :: hexEncode t

/-- `hex::decode`: an even number of hexadecimal digits. -/
def hexDecode : Bytes → Option Bytes
  | [] => some []
  | [_] => none
  | c :: d :: t =>
    match hexValue c, hexValue d, hexDecode t with
    | some x, some y, some bs => some ((x * 16 + y) :: bs)
    | _, _, _ => none

theorem hexEncode_length (bs : Bytes) : (hexEncode bs).length = 2 * bs.length := by
  induction bs with
  | nil => rfl
  | cons b t ih => simp only [hexEncode, List.length_cons, ih]; omega

/-- The hexadecimal digits of one byte recombine to it. -/
theorem hexValue_hexDigit (b : UInt8) :
    hexValue (hexDigit (b / 16)) = some (b / 16) ∧ hexValue (hexDigit (b % 16)) = some (b % 16) ∧
      b / 16 * 16 + b % 16 = b := by
  have key : ∀ n : Fin 256, hexValue (hexDigit (UInt8.ofFin n / 16)) = some (UInt8.ofFin n / 16) ∧
      hexValue (hexDigit (UInt8.ofFin n % 16)) = some (UInt8.ofFin n % 16) ∧
      UInt8.ofFin n / 16 * 16 + UInt8.ofFin n % 16 = UInt8.ofFin n := by decide +kernel
  exact key b.toFin

/-- Decoding undoes encoding. -/
theorem hexDecode_hexEncode (bs : Bytes) : hexDecode (hexEncode bs) = some bs := by
  induction bs with
  | nil => rfl
  | cons b t ih =>
    obtain ⟨hhi, hlo, hb⟩ := hexValue_hexDigit b
    simp only [hexEncode, hexDecode, hhi, hlo, ih, hb]

/-- Two digits are read for every byte. -/
theorem length_of_hexDecode : ∀ {s bs : Bytes}, hexDecode s = some bs → s.length = 2 * bs.length
  | [], _, h => by cases h; rfl
  | [_], _, h => by cases h
  | c :: d :: t, bs, h => by
    unfold hexDecode at h
    split at h
    · next hrest =>
      cases h
      have := length_of_hexDecode hrest
      simp only [List.length_cons]
      omega
    · cases h

/-- Hexadecimal text is digits and the letters `a` to `f`: above the control characters. -/
theorem hexEncode_range (bs : Bytes) : ∀ c ∈ hexEncode bs, 48 ≤ c ∧ c < 128 := by
  have key : ∀ n : Fin 256, (48 ≤ hexDigit (UInt8.ofFin n / 16) ∧
      hexDigit (UInt8.ofFin n / 16) < 128) ∧ (48 ≤ hexDigit (UInt8.ofFin n % 16) ∧
      hexDigit (UInt8.ofFin n % 16) < 128) := by decide +kernel
  induction bs with
  | nil => simp [hexEncode]
  | cons b t ih =>
    intro c hc
    simp only [hexEncode, List.mem_cons] at hc
    rcases hc with rfl | rfl | hc
    · exact (key b.toFin).1
    · exact (key b.toFin).2
    · exact ih c hc

/-! ## Decimal -/

/-- An unsigned number in decimal, without leading zeros. -/
def decimal (n : Nat) : Bytes := (Nat.toDigits 10 n).map fun c => UInt8.ofNat c.toNat

/-- A decimal digit. -/
def isDigit (b : UInt8) : Bool := 48 ≤ b && b ≤ 57

/-- The value of a string of decimal digits. -/
def digitsValue (s : Bytes) : Option Nat :=
  s.foldlM (fun acc b => if isDigit b then some (10 * acc + (b.toNat - 48)) else none) 0

/-- `str::parse` for an unsigned type with `bound` values: an optional `+`, one or more decimal
digits, and a value below the bound. -/
def parseUnsigned (bound : Nat) (s : Bytes) : Option Nat :=
  let digits := if s.head? = some 43 then s.tail else s
  if digits = [] then none
  else (digitsValue digits).bind fun n => if n < bound then some n else none

/-- The digits of a number are those of its tenth and one more. -/
theorem decimal_last_digit (n : Nat) :
    decimal n = (if n < 10 then [] else decimal (n / 10)) ++ [UInt8.ofNat (48 + n % 10)] := by
  have digit : ∀ d < 10, UInt8.ofNat (Nat.digitChar d).toNat = UInt8.ofNat (48 + d) := by
    intro d hd
    interval_cases d <;> rfl
  rw [decimal, Nat.toDigits_eq_if (by omega)]
  split
  · next h => simp [digit n h, Nat.mod_eq_of_lt h]
  · simp [decimal, digit (n % 10) (Nat.mod_lt _ (by omega))]

theorem decimal_ne_nil (n : Nat) : decimal n ≠ [] := by
  rw [decimal_last_digit]; simp

/-- A numeral is not longer than a tenth of the number, and one. -/
theorem length_decimal_le (n : Nat) : (decimal n).length ≤ n / 10 + 1 := by
  induction n using Nat.strongRecOn with
  | ind n ih =>
    rw [decimal_last_digit, List.length_append, List.length_singleton]
    split
    · exact Nat.succ_le_succ (Nat.zero_le _)
    · have hrest := ih (n / 10) (by omega)
      omega

/-- One more digit multiplies by ten and adds. -/
theorem digitsValue_concat (s : Bytes) (b : UInt8) :
    digitsValue (s ++ [b]) = (digitsValue s).bind fun v =>
      if isDigit b then some (10 * v + (b.toNat - 48)) else none := by
  simp only [digitsValue, List.foldlM_append, List.foldlM_cons, List.foldlM_nil]
  cases List.foldlM (m := Option) _ 0 s with
  | none => rfl
  | some v =>
    cases isDigit b <;> simp

/-- The character of a digit is read back as the digit. -/
theorem isDigit_ofNat {d : Nat} (h : d < 10) :
    isDigit (UInt8.ofNat (48 + d)) = true ∧ (UInt8.ofNat (48 + d)).toNat = 48 + d := by
  interval_cases d <;> decide

/-- The value of a decimal numeral is the number. -/
theorem digitsValue_decimal (n : Nat) : digitsValue (decimal n) = some n := by
  induction n using Nat.strongRecOn with
  | ind n ih =>
    have hmod : n % 10 < 10 := Nat.mod_lt _ (by omega)
    obtain ⟨hdigit, hval⟩ := isDigit_ofNat hmod
    rw [decimal_last_digit, digitsValue_concat]
    split
    · next h =>
      have : n % 10 = n := Nat.mod_eq_of_lt h
      rw [show digitsValue [] = some 0 from rfl, Option.bind_some, hval]
      congr 1
      omega
    · next h =>
      rw [ih (n / 10) (by omega), Option.bind_some, hval]
      congr 1
      omega

/-- A decimal numeral is made of digits. -/
theorem isDigit_of_mem_decimal (n : Nat) : ∀ b ∈ decimal n, isDigit b = true := by
  induction n using Nat.strongRecOn with
  | ind n ih =>
    intro b hb
    rw [decimal_last_digit, List.mem_append, List.mem_singleton] at hb
    rcases hb with hb | rfl
    · split at hb
      · cases hb
      · exact ih (n / 10) (by omega) b hb
    · exact (isDigit_ofNat (Nat.mod_lt n (by omega))).1

theorem notMem_decimal {b : UInt8} (hb : isDigit b = false) (n : Nat) : b ∉ decimal n := by
  intro hm
  rw [isDigit_of_mem_decimal n b hm] at hb
  cases hb

theorem decimal_inj {m n : Nat} (h : decimal m = decimal n) : m = n := by
  have hm := digitsValue_decimal m
  rw [h, digitsValue_decimal, Option.some.injEq] at hm
  exact hm.symm

/-- Reading a written number gives it back, below the bound of the type. -/
theorem parseUnsigned_decimal {bound n : Nat} (h : n < bound) :
    parseUnsigned bound (decimal n) = some n := by
  have hplus : (decimal n).head? ≠ some 43 := by
    intro hh
    have := isDigit_of_mem_decimal n 43 (List.mem_of_mem_head? hh)
    exact absurd this (by decide)
  simp only [parseUnsigned, if_neg hplus, if_neg (decimal_ne_nil n), digitsValue_decimal,
    Option.bind_some, if_pos h]

theorem isDigit_of_digitsValue {s : Bytes} {v : Nat} (h : digitsValue s = some v) :
    ∀ b ∈ s, isDigit b = true := by
  induction s using List.reverseRecOn generalizing v with
  | nil => simp
  | append_singleton s c ih =>
    rw [digitsValue_concat] at h
    obtain ⟨w, hw, hc⟩ := Option.bind_eq_some_iff.mp h
    intro b hb
    rcases List.mem_append.mp hb with hb | hb
    · exact ih hw b hb
    · rw [List.mem_singleton.mp hb]
      by_contra hn
      rw [if_neg hn] at hc
      cases hc

/-- What is read as a number is digits, after a `+` at most. -/
theorem mem_of_parseUnsigned {bound v : Nat} {s : Bytes} (h : parseUnsigned bound s = some v) :
    s ≠ [] ∧ ∀ b ∈ s, b = 43 ∨ isDigit b = true := by
  unfold parseUnsigned at h
  by_cases hp : s.head? = some 43
  · obtain ⟨t, rfl⟩ := List.head?_eq_some_iff.mp hp
    simp only [hp, if_true, List.tail_cons] at h
    split at h
    · cases h
    · obtain ⟨w, hw, -⟩ := Option.bind_eq_some_iff.mp h
      refine ⟨by simp, fun b hb => ?_⟩
      rcases List.mem_cons.mp hb with rfl | hb
      · exact .inl rfl
      · exact .inr (isDigit_of_digitsValue hw b hb)
  · simp only [if_neg hp] at h
    split at h
    · cases h
    · next hne =>
      obtain ⟨w, hw, -⟩ := Option.bind_eq_some_iff.mp h
      exact ⟨hne, fun b hb => .inr (isDigit_of_digitsValue hw b hb)⟩

/-! ## Splitting -/

/-- `str::splitn`: at most `n` fields, the last one with the separators that are left. -/
def splitN (sep : UInt8) : Nat → Bytes → List Bytes
  | 0, _ => []
  | 1, s => [s]
  | n + 2, s =>
    match s.dropWhile (· != sep) with
    | [] => [s]
    | _ :: rest => s.takeWhile (· != sep) :: splitN sep (n + 1) rest

/-- A field without the separator is split off. -/
theorem splitN_cons {sep : UInt8} {a r : Bytes} (h : sep ∉ a) (n : Nat) :
    splitN sep (n + 2) (a ++ sep :: r) = a :: splitN sep (n + 1) r := by
  have ha : ∀ b ∈ a, (b != sep) = true := fun b hb => by
    simp only [bne_iff_ne, ne_eq]
    rintro rfl
    exact h hb
  rw [splitN, List.dropWhile_append_of_pos ha, List.takeWhile_append_of_pos ha]
  simp

/-- The fields of a split joined by the separator are the text, and all but the last lack it. -/
theorem splitN_sound {sep : UInt8} {n : Nat} {s a : Bytes} {fs : List Bytes}
    (h : splitN sep (n + 2) s = a :: fs) (hfs : fs ≠ []) :
    ∃ r, s = a ++ sep :: r ∧ sep ∉ a ∧ splitN sep (n + 1) r = fs := by
  rw [splitN] at h
  have htd := List.takeWhile_append_dropWhile (p := (· != sep)) (l := s)
  split at h
  · cases h
    exact absurd rfl hfs
  · next c rest hd =>
    have hc : c = sep := by
      have hhead := List.head?_dropWhile_not (· != sep) s
      simpa [hd] using hhead
    obtain ⟨rfl, hrest⟩ := List.cons.inj h
    refine ⟨rest, ?_, fun hm => ?_, hrest⟩
    · rw [hd, hc] at htd
      exact htd.symm
    · simpa using List.mem_takeWhile_imp hm

/-! ## Line ends -/

/-- What `str::lines` strips from a line: its line feed and a carriage return before it. -/
def stripLineEnd (p : Bytes) : Bytes :=
  if p.getLast? = some LF then
    if p.dropLast.getLast? = some CR then p.dropLast.dropLast else p.dropLast
  else p

/-- A line that does not end with a carriage return is stripped of its line feed only. -/
theorem stripLineEnd_line {l : Bytes} (h : l.getLast? ≠ some CR) :
    stripLineEnd (l ++ [LF]) = l := by
  simp [stripLineEnd, h]

end Np2ptp.Lib
