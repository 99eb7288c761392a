import Np2ptp.Lib.Framing
import Np2ptp.Bridge.Bencode

/-!
# The decoder and the encoding

The recursion of `bencode.rs` without the fuel and the levels of the executable decoder (`Ends`),
the encoder of its tests, and the laws of the two: decoding ends (`ends_decode`), gives back what
was encoded (`decodeLevels_encode`), and does not look past the value that it returns
(`selfDelimiting_decodeLevels`).
-/

namespace Np2ptp.Bencode

open Lib

/-! ## The recursion of the source -/

/-- The calls of `decode`, and the loops of `decode_list` and `decode_dict` with what they have
collected. -/
inductive Call where
  | value (depth : Nat) (input : Bytes)
  | items (depth : Nat) (rest : Bytes) (items : List Value)
  | entries (depth : Nat) (rest : Bytes) (entries : List (Bytes × Value))

/-- A call ends with a result. The depth of a loop is that of the values in it. -/
inductive Ends : Call → Except BridgeError (Value × Bytes) → Prop
  | tooDeep {depth input} (h : MAX_DEPTH < depth) :
      Ends (.value depth input) (.error (err "bencode nesting too deep"))
  | int {depth t} (h : depth ≤ MAX_DEPTH) : Ends (.value depth (105 :: t)) (decodeInt (105 :: t))
  | list {depth t res} (h : depth ≤ MAX_DEPTH) (hloop : Ends (.items (depth + 1) t []) res) :
      Ends (.value depth (108 :: t)) res
  | dict {depth t res} (h : depth ≤ MAX_DEPTH) (hloop : Ends (.entries (depth + 1) t []) res) :
      Ends (.value depth (100 :: t)) res
  | bytes {depth b t} (h : depth ≤ MAX_DEPTH) (hdigit : isDigit b = true) :
      Ends (.value depth (b :: t)) (readMap .bytes decodeByteString (b :: t))
  | empty {depth} (h : depth ≤ MAX_DEPTH) :
      Ends (.value depth []) (.error (err "unexpected byte at start of value"))
  | other {depth b t} (h : depth ≤ MAX_DEPTH)
      (hkind : b ≠ 105 ∧ b ≠ 108 ∧ b ≠ 100 ∧ isDigit b = false) :
      Ends (.value depth (b :: t)) (.error (err "unexpected byte at start of value"))
  | itemsNone {depth items} : Ends (.items depth [] items) (.error (err "unterminated list"))
  | itemsEnd {depth t items} : Ends (.items depth (101 :: t) items) (.ok (.list items, t))
  | itemsFail {depth b t items e} (hb : b ≠ 101) (h : Ends (.value depth (b :: t)) (.error e)) :
      Ends (.items depth (b :: t) items) (.error e)
  | itemsNext {depth b t items v r res} (hb : b ≠ 101)
      (h : Ends (.value depth (b :: t)) (.ok (v, r)))
      (hloop : Ends (.items depth r (items ++ [v])) res) : Ends (.items depth (b :: t) items) res
  | entriesNone {depth entries} :
      Ends (.entries depth [] entries) (.error (err "unterminated dict"))
  | entriesEnd {depth t entries} : Ends (.entries depth (101 :: t) entries) (.ok (.dict entries, t))
  | entriesBadKey {depth b t entries e} (hb : b ≠ 101)
      (hkey : decodeByteString (b :: t) = .error e) :
      Ends (.entries depth (b :: t) entries) (.error e)
  | entriesFail {depth b t entries key r e} (hb : b ≠ 101)
      (hkey : decodeByteString (b :: t) = .ok (key, r)) (h : Ends (.value depth r) (.error e)) :
      Ends (.entries depth (b :: t) entries) (.error e)
  | entriesNext {depth b t entries key r v r₂ res} (hb : b ≠ 101)
      (hkey : decodeByteString (b :: t) = .ok (key, r)) (h : Ends (.value depth r) (.ok (v, r₂)))
      (hloop : Ends (.entries depth r₂ (entries ++ [(key, v)])) res) :
      Ends (.entries depth (b :: t) entries) res

/-! ## The encoder of the tests -/

/-- `{n}` of an integer. -/
def signedDecimal (n : Int) : Bytes :=
  if n < 0 then 45 :: decimal n.natAbs else decimal n.natAbs

/-- `encode` of a byte string. -/
def encodeBytes (b : Bytes) : Bytes := decimal b.length ++ 58 :: b

mutual

/-- `encode`. -/
def Value.encode : Value → Bytes
  | .int n => 105 :: (signedDecimal n ++ [101])
  | .bytes b => encodeBytes b
  | .list l => 108 :: (encodeItems l ++ [101])
  | .dict d => 100 :: (encodeEntries d ++ [101])

def encodeItems : List Value → Bytes
  | [] => []
  | v :: l => v.encode ++ encodeItems l

def encodeEntries : List (Bytes × Value) → Bytes
  | [] => []
  | (key, v) :: d => encodeBytes key ++ v.encode ++ encodeEntries d

end

mutual

/-- How deep the innermost values of a value sit in it. -/
def Value.depth : Value → Nat
  | .int _ => 0
  | .bytes _ => 0
  | .list l => depthItems l
  | .dict d => depthEntries d

def depthItems : List Value → Nat
  | [] => 0
  | v :: l => max (v.depth + 1) (depthItems l)

def depthEntries : List (Bytes × Value) → Nat
  | [] => 0
  | (_, v) :: d => max (v.depth + 1) (depthEntries d)

end

mutual

/-- A value of the source's type: its integers are `i64`, and a `Vec` has less than `2 ^ 63`
bytes. -/
def Value.Fits : Value → Prop
  | .int n => -2 ^ 63 ≤ n ∧ n < 2 ^ 63
  | .bytes b => b.length < 2 ^ 63
  | .list l => FitItems l
  | .dict d => FitEntries d

def FitItems : List Value → Prop
  | [] => True
  | v :: l => v.Fits ∧ FitItems l

def FitEntries : List (Bytes × Value) → Prop
  | [] => True
  | (key, v) :: d => key.length < 2 ^ 63 ∧ v.Fits ∧ FitEntries d

end

/-! ## Integers and byte strings -/

/-- What is before the first byte of a kind does not have it. -/
theorem cutAt_eq_some {b : UInt8} {input s rest : Bytes} :
    cutAt b input = some (s, rest) ↔ input = s ++ b :: rest ∧ b ∉ s := by
  induction input generalizing s with
  | nil => simp [cutAt]
  | cons c t ih =>
    rw [cutAt]
    by_cases hc : c = b
    · subst hc
      rw [if_pos rfl]
      constructor
      · intro h
        cases h
        exact ⟨rfl, List.not_mem_nil⟩
      · rintro ⟨hinput, hmem⟩
        cases s with
        | nil =>
          cases hinput
          rfl
        | cons d s =>
          cases hinput
          exact absurd List.mem_cons_self hmem
    · rw [if_neg hc]
      constructor
      · intro h
        obtain ⟨cut, hcut, he⟩ := Option.map_eq_some_iff.mp h
        cases he
        obtain ⟨rfl, hmem⟩ := ih.mp hcut
        exact ⟨rfl, fun h => (List.mem_cons.mp h).elim (fun e => hc e.symm) hmem⟩
      · rintro ⟨hinput, hmem⟩
        cases s with
        | nil =>
          cases hinput
          exact absurd rfl hc
        | cons d s =>
          cases hinput
          rw [ih.mpr ⟨rfl, fun h => hmem (List.mem_cons_of_mem c h)⟩]
          rfl

theorem stripPrefix_eq_some {b : UInt8} {input rest : Bytes} :
    stripPrefix b input = some rest ↔ input = b :: rest := by
  unfold stripPrefix
  cases input with
  | nil => simp
  | cons c t => simp [eq_comm]

/-- What `decode_int` accepts. -/
theorem decodeInt_eq_ok {input rest : Bytes} {v : Value} : decodeInt input = .ok (v, rest) ↔
    ∃ s n, input = 105 :: (s ++ 101 :: rest) ∧ 101 ∉ s ∧ validUtf8 s = true ∧
      parseI64 s = some n ∧ v = .int n := by
  unfold decodeInt
  constructor
  · intro h
    obtain ⟨t, ht, h⟩ := bind_eq_ok.mp h
    obtain ⟨⟨s, rest'⟩, hcut, h⟩ := bind_eq_ok.mp h
    obtain ⟨_, hutf8, h⟩ := bind_eq_ok.mp h
    obtain ⟨n, hn, h⟩ := bind_eq_ok.mp h
    cases h
    obtain ⟨rfl, hmem⟩ := cutAt_eq_some.mp (okOr_eq_ok.mp hcut)
    obtain rfl := stripPrefix_eq_some.mp (okOr_eq_ok.mp ht)
    exact ⟨s, n, rfl, hmem, ensure_eq_ok.mp hutf8, okOr_eq_ok.mp hn, rfl⟩
  · rintro ⟨s, n, rfl, hmem, hutf8, hn, rfl⟩
    refine bind_eq_ok.mpr ⟨_, okOr_eq_ok.mpr (stripPrefix_eq_some.mpr rfl), ?_⟩
    refine bind_eq_ok.mpr ⟨_, okOr_eq_ok.mpr (cutAt_eq_some.mpr ⟨rfl, hmem⟩), ?_⟩
    refine bind_eq_ok.mpr ⟨(), ensure_eq_ok.mpr hutf8, ?_⟩
    exact bind_eq_ok.mpr ⟨n, okOr_eq_ok.mpr hn, rfl⟩

/-- What `decode_byte_string` accepts. -/
theorem decodeByteString_eq_ok {input b rest : Bytes} : decodeByteString input = .ok (b, rest) ↔
    ∃ s, input = s ++ 58 :: (b ++ rest) ∧ 58 ∉ s ∧ validUtf8 s = true ∧
      parseUnsigned (2 ^ 64) s = some b.length ∧ s.length + 1 + b.length < 2 ^ 64 := by
  unfold decodeByteString
  constructor
  · intro h
    obtain ⟨⟨s, t⟩, hcut, h⟩ := bind_eq_ok.mp h
    obtain ⟨_, hutf8, h⟩ := bind_eq_ok.mp h
    obtain ⟨len, hlen, h⟩ := bind_eq_ok.mp h
    obtain ⟨_, hover, h⟩ := bind_eq_ok.mp h
    obtain ⟨_, hle, h⟩ := bind_eq_ok.mp h
    cases h
    obtain ⟨rfl, hmem⟩ := cutAt_eq_some.mp (okOr_eq_ok.mp hcut)
    have hlength : (t.take len).length = len := List.length_take_of_le (ensure_eq_ok.mp hle)
    refine ⟨s, by rw [List.take_append_drop], hmem, ensure_eq_ok.mp hutf8, ?_, ?_⟩
    · rw [hlength]
      exact okOr_eq_ok.mp hlen
    · rw [hlength]
      exact ensure_eq_ok.mp hover
  · rintro ⟨s, rfl, hmem, hutf8, hlen, hover⟩
    refine bind_eq_ok.mpr ⟨_, okOr_eq_ok.mpr (cutAt_eq_some.mpr ⟨rfl, hmem⟩), ?_⟩
    refine bind_eq_ok.mpr ⟨(), ensure_eq_ok.mpr hutf8, ?_⟩
    refine bind_eq_ok.mpr ⟨_, okOr_eq_ok.mpr hlen, ?_⟩
    refine bind_eq_ok.mpr ⟨(), ensure_eq_ok.mpr hover, ?_⟩
    refine bind_eq_ok.mpr ⟨(), ensure_eq_ok.mpr (by rw [List.length_append]; omega), ?_⟩
    rw [List.take_left, List.drop_left]
    rfl

theorem selfDelimiting_decodeInt : SelfDelimiting decodeInt := by
  intro input v rest h
  obtain ⟨s, n, rfl, hs⟩ := decodeInt_eq_ok.mp h
  refine ⟨105 :: (s ++ [101]), List.cons_ne_nil 105 _, by simp, fun tail => ?_⟩
  exact decodeInt_eq_ok.mpr ⟨s, n, by simp, hs⟩

theorem selfDelimiting_decodeByteString : SelfDelimiting decodeByteString := by
  intro input b rest h
  obtain ⟨s, rfl, hs⟩ := decodeByteString_eq_ok.mp h
  refine ⟨s ++ 58 :: b, by simp, by simp, fun tail => ?_⟩
  exact decodeByteString_eq_ok.mpr ⟨s, by simp, hs⟩

/-! ## Lists and dictionaries -/

/-- One turn of the loop of `decode_list`. -/
def itemStep (decode : Decoder) (items : List Value) :
    Bytes → Except BridgeError (List Value × Bytes) :=
  readMap (fun v => items ++ [v]) decode

/-- One turn of the loop of `decode_dict`. -/
def entryStep (decode : Decoder) (entries : List (Bytes × Value)) :
    Bytes → Except BridgeError (List (Bytes × Value) × Bytes) :=
  readThen decodeByteString fun key => readMap (fun v => entries ++ [(key, v)]) decode

/-- The loop of `decode_list` reads up to an `e`. -/
theorem decodeItems_eq (decode : Decoder) (fuel : Nat) (rest : Bytes) (items : List Value) :
    decodeItems decode fuel rest items =
      (readUntil 101 (err "unterminated list") (itemStep decode) fuel rest items).map
        fun r => (.list r.1, r.2) := by
  induction fuel generalizing rest items with
  | zero => rfl
  | succ fuel ih =>
    cases rest with
    | nil => rfl
    | cons b t =>
      rw [decodeItems, readUntil]
      by_cases hb : b = 101
      · rw [if_pos hb, if_pos hb]
        rfl
      · rw [if_neg hb, if_neg hb]
        unfold itemStep readMap
        cases decode (b :: t) with
        | error e => rfl
        | ok r => exact ih r.2 (items ++ [r.1])

/-- The loop of `decode_dict` reads up to an `e`. -/
theorem decodeEntries_eq (decode : Decoder) (fuel : Nat) (rest : Bytes)
    (entries : List (Bytes × Value)) : decodeEntries decode fuel rest entries =
      (readUntil 101 (err "unterminated dict") (entryStep decode) fuel rest entries).map
        fun r => (.dict r.1, r.2) := by
  induction fuel generalizing rest entries with
  | zero => rfl
  | succ fuel ih =>
    cases rest with
    | nil => rfl
    | cons b t =>
      rw [decodeEntries, readUntil]
      by_cases hb : b = 101
      · rw [if_pos hb, if_pos hb]
        rfl
      · rw [if_neg hb, if_neg hb]
        unfold entryStep readThen readMap
        cases decodeByteString (b :: t) with
        | error e => rfl
        | ok k =>
          obtain ⟨key, r⟩ := k
          show (decode r).bind _ = (((decode r).map _).bind _).map _
          cases decode r with
          | error e => rfl
          | ok v => exact ih v.2 (entries ++ [(key, v.1)])

theorem selfDelimiting_itemStep {decode : Decoder} (h : SelfDelimiting decode)
    (items : List Value) : SelfDelimiting (itemStep decode items) :=
  h.readMap _

theorem selfDelimiting_entryStep {decode : Decoder} (h : SelfDelimiting decode)
    (entries : List (Bytes × Value)) : SelfDelimiting (entryStep decode entries) :=
  selfDelimiting_decodeByteString.readThen fun _ => h.readMap _

/-- A byte in front of what is read. -/
theorem SelfDelimiting.stripPrefix {α : Type} {b : UInt8} {msg : String}
    {read : Bytes → Except BridgeError (α × Bytes)} (h : SelfDelimiting read) :
    SelfDelimiting fun input => (do
      let rest ← okOr (stripPrefix b input) msg
      read rest : Except BridgeError (α × Bytes)) := by
  intro input a rest h₀
  obtain ⟨t, ht, hread⟩ := bind_eq_ok.mp h₀
  obtain rfl := stripPrefix_eq_some.mp (okOr_eq_ok.mp ht)
  obtain ⟨used, -, rfl, htail⟩ := h t a rest hread
  refine ⟨b :: used, List.cons_ne_nil b used, rfl, fun tail => ?_⟩
  exact bind_eq_ok.mpr ⟨used ++ tail, okOr_eq_ok.mpr (stripPrefix_eq_some.mpr rfl), htail tail⟩

theorem selfDelimiting_decodeList {decode : Decoder} (h : SelfDelimiting decode) :
    SelfDelimiting (decodeList decode) := by
  refine SelfDelimiting.stripPrefix ?_
  simp only [decodeItems_eq]
  exact (SelfDelimiting.readUntil (selfDelimiting_itemStep h) []).readMap Value.list

theorem selfDelimiting_decodeDict {decode : Decoder} (h : SelfDelimiting decode) :
    SelfDelimiting (decodeDict decode) := by
  refine SelfDelimiting.stripPrefix ?_
  simp only [decodeEntries_eq]
  exact (SelfDelimiting.readUntil (selfDelimiting_entryStep h) []).readMap Value.dict

/-! ## Values -/

theorem ne_of_isDigit {b : UInt8} (h : isDigit b = true) : b ≠ 105 ∧ b ≠ 108 ∧ b ≠ 100 := by
  refine ⟨?_, ?_, ?_⟩ <;>
    · rintro rfl
      cases h

/-- A first byte that is none of the three marks. -/
theorem decodeLevels_of_ne {levels : Nat} {b : UInt8} (h : b ≠ 105 ∧ b ≠ 108 ∧ b ≠ 100)
    (t : Bytes) : decodeLevels (levels + 1) (b :: t) =
      if isDigit b then readMap .bytes decodeByteString (b :: t)
      else .error (err "unexpected byte at start of value") := by
  obtain ⟨hint, hlist, hdict⟩ := h
  unfold readMap
  rw [decodeLevels]
  split
  · next he => exact absurd (Option.some.inj he) hint
  · next he => exact absurd (Option.some.inj he) hlist
  · next he => exact absurd (Option.some.inj he) hdict
  · next he =>
    cases he
    split
    · cases decodeByteString (b :: t) <;> rfl
    · rfl
  · next he => cases he

/-- The first byte of a byte string. -/
theorem decodeLevels_bytes {levels : Nat} {b : UInt8} (h : isDigit b = true) (t : Bytes) :
    decodeLevels (levels + 1) (b :: t) = readMap .bytes decodeByteString (b :: t) := by
  rw [decodeLevels_of_ne (ne_of_isDigit h), if_pos h]

/-- A byte that no value begins with. -/
theorem decodeLevels_other {levels : Nat} {b : UInt8}
    (h : b ≠ 105 ∧ b ≠ 108 ∧ b ≠ 100 ∧ isDigit b = false) (t : Bytes) :
    decodeLevels (levels + 1) (b :: t) = .error (err "unexpected byte at start of value") := by
  obtain ⟨hint, hlist, hdict, hdigit⟩ := h
  rw [decodeLevels_of_ne ⟨hint, hlist, hdict⟩, hdigit]
  rfl

/-- The decoder does not look past the value that it returns. -/
theorem selfDelimiting_decodeLevels (levels : Nat) : SelfDelimiting (decodeLevels levels) := by
  induction levels with
  | zero =>
    intro input v rest h
    cases h
  | succ levels ih =>
    refine .of_first (fun r h => by cases h) fun b => ?_
    by_cases hint : b = 105
    · subst hint
      exact ⟨decodeInt, selfDelimiting_decodeInt, fun t => rfl⟩
    by_cases hlist : b = 108
    · subst hlist
      exact ⟨_, selfDelimiting_decodeList ih, fun t => rfl⟩
    by_cases hdict : b = 100
    · subst hdict
      exact ⟨_, selfDelimiting_decodeDict ih, fun t => rfl⟩
    cases hdigit : isDigit b with
    | true =>
      exact ⟨_, selfDelimiting_decodeByteString.readMap .bytes, decodeLevels_bytes hdigit⟩
    | false =>
      exact ⟨_, selfDelimiting_error _, decodeLevels_other ⟨hint, hlist, hdict, hdigit⟩⟩

/-! ## Decoding ends -/

/-- The loop of `decode_list` ends, as its turns take something each. -/
theorem ends_items {decode : Decoder} {depth : Nat} (hdecode : SelfDelimiting decode)
    (hends : ∀ input, Ends (.value depth input) (decode input)) {fuel : Nat} :
    ∀ {rest : Bytes}, rest.length < fuel → ∀ items,
      Ends (.items depth rest items) (decodeItems decode fuel rest items) := by
  induction fuel with
  | zero => exact fun h => absurd h (Nat.not_lt_zero _)
  | succ fuel ih =>
    intro rest hfuel items
    cases rest with
    | nil => exact .itemsNone
    | cons b t =>
      rw [decodeItems]
      by_cases hb : b = 101
      · subst hb
        exact .itemsEnd
      · rw [if_neg hb]
        have hvalue := hends (b :: t)
        cases hv : decode (b :: t) with
        | error e =>
          rw [hv] at hvalue
          exact .itemsFail hb hvalue
        | ok r =>
          rw [hv] at hvalue
          have hlt : r.2.length < fuel := (hdecode.length_lt hv).trans_le (Nat.le_of_lt_succ hfuel)
          exact .itemsNext hb hvalue (ih hlt (items ++ [r.1]))

/-- The loop of `decode_dict` ends. -/
theorem ends_entries {decode : Decoder} {depth : Nat} (hdecode : SelfDelimiting decode)
    (hends : ∀ input, Ends (.value depth input) (decode input)) {fuel : Nat} :
    ∀ {rest : Bytes}, rest.length < fuel → ∀ entries,
      Ends (.entries depth rest entries) (decodeEntries decode fuel rest entries) := by
  induction fuel with
  | zero => exact fun h => absurd h (Nat.not_lt_zero _)
  | succ fuel ih =>
    intro rest hfuel entries
    cases rest with
    | nil => exact .entriesNone
    | cons b t =>
      rw [decodeEntries]
      by_cases hb : b = 101
      · subst hb
        exact .entriesEnd
      · rw [if_neg hb]
        cases hk : decodeByteString (b :: t) with
        | error e => exact .entriesBadKey hb hk
        | ok k =>
          obtain ⟨key, r⟩ := k
          have hvalue := hends r
          show Ends _ ((decode r).bind _)
          cases hv : decode r with
          | error e =>
            rw [hv] at hvalue
            exact .entriesFail hb hk hvalue
          | ok v =>
            rw [hv] at hvalue
            have hkey := selfDelimiting_decodeByteString.length_lt hk
            have hlt : v.2.length < fuel :=
              ((hdecode.length_lt hv).trans hkey).trans_le (Nat.le_of_lt_succ hfuel)
            exact .entriesNext hb hk hvalue (ih hlt (entries ++ [(key, v.1)]))

/-- Every call of `decode` ends, with what the model computes. -/
theorem ends_decodeLevels (levels : Nat) : ∀ {depth : Nat}, depth + levels = MAX_DEPTH + 1 →
    ∀ input, Ends (.value depth input) (decodeLevels levels input) := by
  induction levels with
  | zero =>
    intro depth hdepth input
    exact .tooDeep (by omega)
  | succ levels ih =>
    intro depth hdepth input
    have hle : depth ≤ MAX_DEPTH := by omega
    have hdeeper := ih (show depth + 1 + levels = MAX_DEPTH + 1 by omega)
    cases input with
    | nil => exact .empty hle
    | cons b t =>
      by_cases hint : b = 105
      · subst hint
        exact .int hle
      by_cases hlist : b = 108
      · subst hlist
        exact .list hle (ends_items (selfDelimiting_decodeLevels levels) hdeeper
          (Nat.lt_succ_self t.length) [])
      by_cases hdict : b = 100
      · subst hdict
        exact .dict hle (ends_entries (selfDelimiting_decodeLevels levels) hdeeper
          (Nat.lt_succ_self t.length) [])
      cases hdigit : isDigit b with
      | true =>
        rw [decodeLevels_bytes hdigit]
        exact .bytes hle hdigit
      | false =>
        rw [decodeLevels_other ⟨hint, hlist, hdict, hdigit⟩]
        exact .other hle ⟨hint, hlist, hdict, hdigit⟩

/-! ## What is encoded is decoded -/

theorem lt_of_isDigit {b : UInt8} (h : isDigit b = true) : b < 128 := by
  unfold isDigit at h
  rw [Bool.and_eq_true, decide_eq_true_iff, decide_eq_true_iff] at h
  exact UInt8.lt_of_le_of_lt h.2 (by decide)

/-- An integer in range is read back. -/
theorem parseI64_signedDecimal {n : Int} (h : -2 ^ 63 ≤ n ∧ n < 2 ^ 63) :
    parseI64 (signedDecimal n) = some n := by
  have hdigits := decimal_ne_nil n.natAbs
  have hvalue := digitsValue_decimal n.natAbs
  unfold signedDecimal parseI64
  by_cases hneg : n < 0
  · have hle : n.natAbs ≤ 2 ^ 63 := by omega
    have habs : -(n.natAbs : Int) = n := by omega
    have hminus : (45 :: decimal n.natAbs).head? = some 45 := rfl
    rw [if_pos hneg]
    dsimp only
    rw [if_pos (Or.inr hminus), List.tail_cons, if_neg hdigits, hvalue, Option.bind_some,
      if_pos hminus, if_pos hle, habs]
  · have hlt : n.natAbs < 2 ^ 63 := by omega
    have habs : (n.natAbs : Int) = n := by omega
    have hsign (b : UInt8) (hb : isDigit b = false) : (decimal n.natAbs).head? ≠ some b :=
      fun hh => notMem_decimal hb _ (List.mem_of_mem_head? hh)
    have hplus := hsign 43 (by decide)
    have hminus := hsign 45 (by decide)
    rw [if_neg hneg]
    dsimp only
    rw [if_neg (not_or.mpr ⟨hplus, hminus⟩), if_neg hdigits, hvalue, Option.bind_some,
      if_neg hminus, if_pos hlt, habs]

theorem mem_signedDecimal {n : Int} {b : UInt8} (h : b ∈ signedDecimal n) :
    b = 45 ∨ isDigit b = true := by
  unfold signedDecimal at h
  split at h
  · rcases List.mem_cons.mp h with rfl | h
    · exact .inl rfl
    · exact .inr (isDigit_of_mem_decimal _ b h)
  · exact .inr (isDigit_of_mem_decimal _ b h)

theorem decodeInt_encode {n : Int} (h : -2 ^ 63 ≤ n ∧ n < 2 ^ 63) (rest : Bytes) :
    decodeInt (105 :: (signedDecimal n ++ 101 :: rest)) = .ok (.int n, rest) := by
  refine decodeInt_eq_ok.mpr ⟨_, n, rfl, fun hm => ?_, ?_, parseI64_signedDecimal h, rfl⟩
  · rcases mem_signedDecimal hm with he | hd
    · cases he
    · cases hd
  · refine validUtf8_of_ascii fun b hb => ?_
    rcases mem_signedDecimal hb with rfl | hd
    · decide
    · exact lt_of_isDigit hd

theorem decodeByteString_encode {b : Bytes} (h : b.length < 2 ^ 63) (rest : Bytes) :
    decodeByteString (encodeBytes b ++ rest) = .ok (b, rest) := by
  have hdigits := length_decimal_le b.length
  refine decodeByteString_eq_ok.mpr ⟨decimal b.length, ?_, notMem_decimal (by decide) _,
    validUtf8_of_ascii fun c hc => lt_of_isDigit (isDigit_of_mem_decimal _ c hc),
    parseUnsigned_decimal (by omega), by omega⟩
  rw [encodeBytes, List.append_assoc]
  rfl

/-- A byte string begins with a digit. -/
theorem encodeBytes_eq_cons (b : Bytes) : ∃ c t, encodeBytes b = c :: t ∧ isDigit c = true := by
  obtain ⟨c, t, hc⟩ := List.exists_cons_of_ne_nil (decimal_ne_nil b.length)
  refine ⟨c, t ++ 58 :: b, by rw [encodeBytes, hc]; rfl, ?_⟩
  exact isDigit_of_mem_decimal b.length c (by rw [hc]; exact List.mem_cons_self)

theorem ne_stop_of_isDigit {b : UInt8} (h : isDigit b = true) : b ≠ 101 := by
  rintro rfl
  cases h

/-- No value begins with the terminator. -/
theorem Value.encode_eq_cons (v : Value) : ∃ b t, v.encode = b :: t ∧ b ≠ 101 := by
  cases v with
  | int n => exact ⟨105, _, by rw [Value.encode], by decide⟩
  | bytes b =>
    obtain ⟨c, t, hc, hdigit⟩ := encodeBytes_eq_cons b
    exact ⟨c, t, by rw [Value.encode, hc], ne_stop_of_isDigit hdigit⟩
  | list l => exact ⟨108, _, by rw [Value.encode], by decide⟩
  | dict d => exact ⟨100, _, by rw [Value.encode], by decide⟩

/-- `encode` of a key and its value. -/
def encodeEntry (e : Bytes × Value) : Bytes := encodeBytes e.1 ++ e.2.encode

theorem encodeItems_eq (l : List Value) : encodeItems l = l.flatMap Value.encode := by
  induction l with
  | nil => rfl
  | cons v l ih => rw [encodeItems, ih, List.flatMap_cons]

theorem encodeEntries_eq (d : List (Bytes × Value)) : encodeEntries d = d.flatMap encodeEntry := by
  induction d with
  | nil => rfl
  | cons e d ih => rw [encodeEntries, ih, List.flatMap_cons, encodeEntry]

/-- What an item brings into a list: it fits, and sits one deeper. -/
theorem of_mem_items {l : List Value} (hfits : FitItems l) {v : Value} (hv : v ∈ l) :
    v.Fits ∧ v.depth + 1 ≤ depthItems l := by
  induction l with
  | nil => cases hv
  | cons w l ih =>
    rw [FitItems] at hfits
    rw [depthItems]
    rcases List.mem_cons.mp hv with rfl | hv
    · exact ⟨hfits.1, le_max_left _ _⟩
    · obtain ⟨hvfits, hdepth⟩ := ih hfits.2 hv
      exact ⟨hvfits, hdepth.trans (le_max_right _ _)⟩

theorem of_mem_entries {d : List (Bytes × Value)} (hfits : FitEntries d) {e : Bytes × Value}
    (he : e ∈ d) : e.1.length < 2 ^ 63 ∧ e.2.Fits ∧ e.2.depth + 1 ≤ depthEntries d := by
  induction d with
  | nil => cases he
  | cons e' d ih =>
    rw [FitEntries] at hfits
    rw [depthEntries]
    rcases List.mem_cons.mp he with rfl | he
    · exact ⟨hfits.1, hfits.2.1, le_max_left _ _⟩
    · obtain ⟨hkey, hvfits, hdepth⟩ := ih hfits.2.2 he
      exact ⟨hkey, hvfits, hdepth.trans (le_max_right _ _)⟩

/-- What is encoded is decoded, whatever follows it, where there are levels enough. -/
theorem decodeLevels_encode (levels : Nat) : ∀ {v : Value}, v.Fits → v.depth < levels →
    ∀ rest, decodeLevels levels (v.encode ++ rest) = .ok (v, rest) := by
  induction levels with
  | zero => exact fun _ h => absurd h (Nat.not_lt_zero _)
  | succ levels ih =>
    intro v hfits hdepth rest
    cases v with
    | int n =>
      rw [Value.Fits] at hfits
      rw [Value.encode, List.cons_append, List.append_assoc]
      exact decodeInt_encode hfits rest
    | bytes b =>
      rw [Value.Fits] at hfits
      rw [Value.encode]
      obtain ⟨c, t, hc, hdigit⟩ := encodeBytes_eq_cons b
      have hread := decodeByteString_encode hfits rest
      rw [hc, List.cons_append] at hread ⊢
      rw [decodeLevels_bytes hdigit, readMap, hread]
      rfl
    | list l =>
      rw [Value.Fits] at hfits
      rw [Value.depth] at hdepth
      rw [Value.encode, encodeItems_eq, List.cons_append, List.append_assoc]
      show decodeItems (decodeLevels levels) ((l.flatMap Value.encode ++ 101 :: rest).length + 1)
        (l.flatMap Value.encode ++ 101 :: rest) [] = _
      have hstep : ∀ v ∈ l, ∀ acc tail, itemStep (decodeLevels levels) acc (v.encode ++ tail) =
          .ok (acc ++ [v], tail) := by
        intro v hv acc tail
        obtain ⟨hvfits, hvdepth⟩ := of_mem_items hfits hv
        rw [itemStep, readMap, ih hvfits (by omega) tail]
        rfl
      rw [decodeItems_eq, readUntil_flatMap hstep fun v _ => v.encode_eq_cons]
      rfl
    | dict d =>
      rw [Value.Fits] at hfits
      rw [Value.depth] at hdepth
      rw [Value.encode, encodeEntries_eq, List.cons_append, List.append_assoc]
      show decodeEntries (decodeLevels levels) ((d.flatMap encodeEntry ++ 101 :: rest).length + 1)
        (d.flatMap encodeEntry ++ 101 :: rest) [] = _
      have hstep : ∀ e ∈ d, ∀ acc tail, entryStep (decodeLevels levels) acc
          (encodeEntry e ++ tail) = .ok (acc ++ [e], tail) := by
        intro e he acc tail
        obtain ⟨hkey, hvfits, hvdepth⟩ := of_mem_entries hfits he
        rw [entryStep, readThen, encodeEntry, List.append_assoc, decodeByteString_encode hkey]
        show readMap (fun v => acc ++ [(e.1, v)]) (decodeLevels levels) (e.2.encode ++ tail) = _
        rw [readMap, ih hvfits (by omega) tail]
        rfl
      have hhead : ∀ e ∈ d, ∃ b t, encodeEntry e = b :: t ∧ b ≠ 101 := by
        intro e _
        obtain ⟨c, t, hc, hdigit⟩ := encodeBytes_eq_cons e.1
        exact ⟨c, t ++ e.2.encode, by rw [encodeEntry, hc]; rfl, ne_stop_of_isDigit hdigit⟩
      rw [decodeEntries_eq, readUntil_flatMap hstep hhead]
      rfl

/-- Bencode: what is encoded is decoded, decoding ends on every input, and what a value was decoded
from is decoded to it whatever follows. -/
theorem decode_inverts_encode :
    (∀ v : Value, v.Fits → v.depth ≤ MAX_DEPTH → ∀ rest,
      decode (v.encode ++ rest) 0 = .ok (v, rest)) ∧
    (∀ input depth, Ends (.value depth input) (decode input depth)) ∧
    ∀ input depth v rest, decode input depth = .ok (v, rest) → ∃ used, used ≠ [] ∧
      input = used ++ rest ∧ ∀ tail, decode (used ++ tail) depth = .ok (v, tail) := by
  refine ⟨fun v hfits hdepth rest => ?_, fun input depth => ?_, fun input depth v rest h => ?_⟩
  · exact decodeLevels_encode (MAX_DEPTH + 1 - 0) hfits (Nat.lt_succ_of_le hdepth) rest
  · by_cases hdepth : depth ≤ MAX_DEPTH
    · exact ends_decodeLevels _ (by omega) input
    · have hlevels : MAX_DEPTH + 1 - depth = 0 := by omega
      rw [decode, hlevels]
      exact .tooDeep (Nat.lt_of_not_le hdepth)
  · exact selfDelimiting_decodeLevels _ input v rest h

/-- `{ "a": [-5] }`, before an `e`. -/
theorem decode_inverts_encode_x :
    let v := Value.dict [([97], .list [.int (-5)])]
    decode (v.encode ++ [101]) 0 = .ok (v, [101]) ∧ ∃ used, used ≠ [] ∧
      v.encode ++ [101] = used ++ [101] ∧ ∀ tail, decode (used ++ tail) 0 = .ok (v, tail) := by
  intro v
  obtain ⟨hencode, -, hused⟩ := decode_inverts_encode
  have hfits : v.Fits := by
    simp [v, Value.Fits, FitEntries, FitItems]
  have hdecode := hencode v hfits (by decide) [101]
  exact ⟨hdecode, hused _ 0 v [101] hdecode⟩

end Np2ptp.Bencode
