import Mathlib.Logic.Equiv.Defs
import Np2ptp.Lib.Utf8

/-!
# Byte codecs in the format of bincode

Fixed-width little-endian integers, 64-bit lengths in front of sequences and texts, one-byte tags
in front of options, and records as their fields in order. A codec carries both of its laws: what
is encoded decodes to itself and leaves the rest of the input, and the decoder accepts nothing but
encodings. A codec of a record is put together from those of its fields, so neither law is proved
again for it.
-/

namespace Np2ptp.Lib

/-- A byte form of the values that fit it, and the reader of that form. -/
structure Codec (α : Type) where
  encode : α → Bytes
  decode : Bytes → Option (α × Bytes)
  /-- The values that have a byte form: those whose lengths fit the length fields. -/
  Fits : α → Prop
  decode_encode : ∀ a rest, Fits a → decode (encode a ++ rest) = some (a, rest)
  encode_decode : ∀ b a rest, decode b = some (a, rest) → Fits a ∧ b = encode a ++ rest

namespace Codec

variable {α β : Type}

/-! ## Bytes and integers -/

/-- A given number of bytes as they are. -/
def raw (n : Nat) : Codec { bs : Bytes // bs.length = n } where
  encode bs := bs.val
  decode b := if h : n ≤ b.length then
    some (⟨b.take n, by rw [List.length_take]; omega⟩, b.drop n) else none
  Fits _ := True
  decode_encode bs rest _ := by
    obtain ⟨bs, rfl⟩ := bs
    rw [dif_pos (by simp)]
    simp
  encode_decode b bs rest h := by
    split at h
    · cases h
      exact ⟨trivial, (List.take_append_drop n b).symm⟩
    · cases h

/-- The low `k` bytes of a number, the lowest first. -/
def leBytes : Nat → Nat → Bytes
  | 0, _ => []
  | k + 1, n => UInt8.ofNat n :: leBytes k (n / 256)

/-- The number that some bytes are the low bytes of. -/
def leValue : Bytes → Nat
  | [] => 0
  | b :: t => b.toNat + 256 * leValue t

@[simp] theorem length_leBytes : ∀ k n, (leBytes k n).length = k
  | 0, _ => rfl
  | k + 1, n => by rw [leBytes, List.length_cons, length_leBytes k]

theorem leValue_leBytes : ∀ {k n : Nat}, n < 256 ^ k → leValue (leBytes k n) = n
  | 0, n, h => by simp only [pow_zero, Nat.lt_one_iff] at h; simp [leBytes, leValue, h]
  | k + 1, n, h => by
    have hq : n / 256 < 256 ^ k := Nat.div_lt_of_lt_mul (by rwa [pow_succ'] at h)
    rw [leBytes, leValue, leValue_leBytes hq, UInt8.toNat_ofNat']
    omega

theorem leValue_lt : ∀ bs : Bytes, leValue bs < 256 ^ bs.length
  | [] => by simp [leValue]
  | b :: t => by
    have hb : b.toNat < 256 := b.toNat_lt
    have ht := leValue_lt t
    rw [leValue, List.length_cons, pow_succ']
    omega

theorem leBytes_leValue : ∀ bs : Bytes, leBytes bs.length (leValue bs) = bs
  | [] => rfl
  | b :: t => by
    have hb : b.toNat < 256 := b.toNat_lt
    have hq : (b.toNat + 256 * leValue t) / 256 = leValue t := by omega
    rw [List.length_cons, leBytes, leValue, hq, leBytes_leValue t]
    congr 1
    rw [← UInt8.toNat_inj, UInt8.toNat_ofNat']
    omega

/-- A little-endian number of `k` bytes. -/
def le (k : Nat) : Codec Nat where
  encode n := leBytes k n
  decode b := if k ≤ b.length then some (leValue (b.take k), b.drop k) else none
  Fits n := n < 256 ^ k
  decode_encode n rest h := by
    rw [if_pos (by simp), List.take_left' (length_leBytes k n),
      List.drop_left' (length_leBytes k n),
      leValue_leBytes h]
  encode_decode b n rest h := by
    split at h
    · next hle =>
      cases h
      have hlen : (b.take k).length = k := by rw [List.length_take]; omega
      have hlt := leValue_lt (b.take k)
      have henc := leBytes_leValue (b.take k)
      rw [hlen] at hlt henc
      exact ⟨hlt, by rw [henc, List.take_append_drop]⟩
    · cases h

/-! ## Putting codecs together -/

/-- The same byte form for the values on the other side of an equivalence. -/
def map (c : Codec α) (e : α ≃ β) : Codec β where
  encode b := c.encode (e.symm b)
  decode b := (c.decode b).map fun r => (e r.1, r.2)
  Fits b := c.Fits (e.symm b)
  decode_encode b rest h := by rw [c.decode_encode _ _ h]; simp
  encode_decode b x rest h := by
    obtain ⟨⟨a, r⟩, hd, he⟩ := Option.map_eq_some_iff.mp h
    cases he
    simpa using c.encode_decode _ _ _ hd

/-- Two values, the second after the first. -/
def pair (c : Codec α) (d : Codec β) : Codec (α × β) where
  encode x := c.encode x.1 ++ d.encode x.2
  decode b :=
    match c.decode b with
    | none => none
    | some (a, b) =>
      match d.decode b with
      | none => none
      | some (x, b) => some ((a, x), b)
  Fits x := c.Fits x.1 ∧ d.Fits x.2
  decode_encode x rest h := by
    rw [List.append_assoc, c.decode_encode _ _ h.1]
    dsimp only
    rw [d.decode_encode _ _ h.2]
  encode_decode b x rest h := by
    split at h
    · cases h
    · next a b1 hc =>
      split at h
      · cases h
      · next y b2 hd =>
        cases h
        obtain ⟨hfa, rfl⟩ := c.encode_decode _ _ _ hc
        obtain ⟨hfx, rfl⟩ := d.encode_decode _ _ _ hd
        exact ⟨⟨hfa, hfx⟩, (List.append_assoc ..).symm⟩

/-- The values that meet a condition. -/
def filter (c : Codec α) (p : α → Prop) [DecidablePred p] : Codec { a : α // p a } where
  encode a := c.encode a.val
  decode b :=
    match c.decode b with
    | none => none
    | some (a, b) => if h : p a then some (⟨a, h⟩, b) else none
  Fits a := c.Fits a.val
  decode_encode a rest h := by
    rw [c.decode_encode _ _ h]
    exact dif_pos a.property
  encode_decode b a rest h := by
    split at h
    · cases h
    · next hc =>
      split at h
      · cases h
        exact c.encode_decode _ _ _ hc
      · cases h

/-- A tag byte, 0 or 1, and after a 1 the value. -/
def option (c : Codec α) : Codec (Option α) where
  encode
    | none => [0]
    | some a => 1 :: c.encode a
  decode
    | [] => none
    | tag :: b =>
      if tag = 0 then some (none, b)
      else if tag = 1 then (c.decode b).map fun r => (some r.1, r.2)
      else none
  Fits o := ∀ a ∈ o, c.Fits a
  decode_encode o rest h := by
    cases o with
    | none => rfl
    | some a =>
      show Option.map _ (c.decode (c.encode a ++ rest)) = _
      rw [c.decode_encode _ _ (h a rfl)]
      rfl
  encode_decode b o rest h := by
    cases b with
    | nil => cases h
    | cons tag b =>
      dsimp only at h
      split at h
      · next h0 =>
        cases h
        exact ⟨fun _ ha => (by cases ha), by rw [h0]; rfl⟩
      · split at h
        · next h1 =>
          obtain ⟨⟨a, r⟩, hd, he⟩ := Option.map_eq_some_iff.mp h
          cases he
          obtain ⟨hf, rfl⟩ := c.encode_decode _ _ _ hd
          exact ⟨fun _ hx => (by cases hx; exact hf), by rw [h1]; rfl⟩
        · cases h

/-! ## Sequences -/

/-- A given number of values. -/
def decodeN (c : Codec α) : Nat → Bytes → Option (List α × Bytes)
  | 0, b => some ([], b)
  | n + 1, b =>
    match c.decode b with
    | none => none
    | some (a, b) =>
      match c.decodeN n b with
      | none => none
      | some (as, b) => some (a :: as, b)

theorem decodeN_encode (c : Codec α) (rest : Bytes) : ∀ as : List α, (∀ a ∈ as, c.Fits a) →
    c.decodeN as.length (as.flatMap c.encode ++ rest) = some (as, rest)
  | [], _ => rfl
  | a :: as, h => by
    have hrest := c.decodeN_encode rest as fun x hx => h x (List.mem_cons_of_mem _ hx)
    rw [List.length_cons, List.flatMap_cons, List.append_assoc, decodeN,
      c.decode_encode _ _ (h a List.mem_cons_self)]
    dsimp only
    rw [hrest]

theorem encode_decodeN (c : Codec α) : ∀ {n : Nat} {b : Bytes} {as : List α} {rest : Bytes},
    c.decodeN n b = some (as, rest) →
    as.length = n ∧ (∀ a ∈ as, c.Fits a) ∧ b = as.flatMap c.encode ++ rest
  | 0, _, _, _, h => by cases h; simp
  | n + 1, b, as, rest, h => by
    rw [decodeN] at h
    split at h
    · cases h
    · next a b1 hd =>
      split at h
      · cases h
      · next t b2 ht =>
        cases h
        obtain ⟨hf, rfl⟩ := c.encode_decode _ _ _ hd
        obtain ⟨hlen, hfs, rfl⟩ := c.encode_decodeN ht
        refine ⟨by rw [List.length_cons, hlen], fun x hx => ?_, by simp⟩
        rcases List.mem_cons.mp hx with rfl | hx
        · exact hf
        · exact hfs x hx

/-- A 64-bit length and as many values. -/
def list (c : Codec α) : Codec (List α) where
  encode as := (le 8).encode as.length ++ as.flatMap c.encode
  decode b :=
    match (le 8).decode b with
    | none => none
    | some (n, b) => c.decodeN n b
  Fits as := as.length < 256 ^ 8 ∧ ∀ a ∈ as, c.Fits a
  decode_encode as rest h := by
    rw [List.append_assoc, (le 8).decode_encode _ _ h.1]
    exact c.decodeN_encode rest as h.2
  encode_decode b as rest h := by
    split at h
    · cases h
    · next n b1 hn =>
      obtain ⟨hfn, rfl⟩ := (le 8).encode_decode _ _ _ hn
      obtain ⟨rfl, hfs, rfl⟩ := c.encode_decodeN h
      exact ⟨⟨hfn, hfs⟩, (List.append_assoc ..).symm⟩

/-! ## The types of the language -/

/-- `u8`. -/
def u8 : Codec UInt8 where
  encode b := [b]
  decode
    | [] => none
    | b :: rest => some (b, rest)
  Fits _ := True
  decode_encode _ _ _ := rfl
  encode_decode b a rest h := by
    cases b with
    | nil => cases h
    | cons x t => cases h; exact ⟨trivial, rfl⟩

/-- `u32`. -/
def u32 : Codec UInt32 :=
  ((le 4).filter (· < 2 ^ 32)).map
    { toFun n := UInt32.ofNat n.val
      invFun x := ⟨x.toNat, x.toNat_lt⟩
      left_inv n := Subtype.ext (UInt32.toNat_ofNat_of_lt' n.property)
      right_inv _ := UInt32.ofNat_toNat }

/-- `u64`, and `usize` on a 64-bit machine. -/
def u64 : Codec UInt64 :=
  ((le 8).filter (· < 2 ^ 64)).map
    { toFun n := UInt64.ofNat n.val
      invFun x := ⟨x.toNat, x.toNat_lt⟩
      left_inv n := Subtype.ext (UInt64.toNat_ofNat_of_lt' n.property)
      right_inv _ := UInt64.ofNat_toNat }

/-- `String`: its bytes as a sequence, checked to be UTF-8. -/
def text : Codec Text :=
  (u8.list.filter (validUtf8 · = true)).map
    { toFun bs := ⟨bs.val, bs.property⟩
      invFun t := ⟨t.bytes, t.valid⟩
      left_inv _ := rfl
      right_inv _ := rfl }

@[simp] theorem u8_fits (b : UInt8) : u8.Fits b := trivial

@[simp] theorem u32_fits (x : UInt32) : u32.Fits x := x.toNat_lt

@[simp] theorem u64_fits (x : UInt64) : u64.Fits x := x.toNat_lt

/-- A text fits when the number of its bytes does. -/
theorem text_fits {t : Text} (h : t.bytes.length < 2 ^ 64) : text.Fits t :=
  ⟨h, fun b _ => u8_fits b⟩

end Codec

end Np2ptp.Lib
