import Np2ptp.Lib.Bincode

/-!
# Erasure coding

`np2ptp-fec/src/lib.rs`, the wrapper over the `raptorq` crate. The codec is a parameter: what it
computes is not modelled, only what the wrapper does with it. Its decoder takes one serialized
packet at a time and may answer with the decoded object after any of them. `RaptorQ.Codes` says
what is relied on of the codec for one content.
-/

namespace Np2ptp

open Lib

/-- The `raptorq` crate. Packets are serialized ones. -/
class RaptorQ where
  /-- `ObjectTransmissionInformation`. -/
  Oti : Type
  /-- `with_defaults` of a transfer length and a symbol size. -/
  withDefaults : Nat → Nat → Oti
  serialize : Oti → Bytes
  deserialize : Bytes → Oti
  symbolSize : Oti → Nat
  sourceBlocks : Oti → UInt8
  partition : Nat → Nat → Nat × Nat × Nat × Nat
  /-- `Encoder::with_defaults` and `get_encoded_packets`: of some data, a symbol size and a number
  of repair symbols for each source block. -/
  encodedPackets : Bytes → Nat → Nat → List Bytes
  Decoder : Type
  newDecoder : Oti → Decoder
  decode : Decoder → Bytes → Option Bytes × Decoder

/-- `DEFAULT_SYMBOL_SIZE`. -/
def DEFAULT_SYMBOL_SIZE : Nat := 1200

/-- `usize::div_ceil`. -/
def divCeil (n d : Nat) : Nat := (n + d - 1) / d

variable [RaptorQ]

/-- `config_for`. -/
def Fec.configFor (sourceLen symbolSize : Nat) : Bytes :=
  RaptorQ.serialize (RaptorQ.withDefaults sourceLen symbolSize)

/-- `Encoded`. -/
structure Fec.Encoded where
  config : Bytes
  sourceLen : Nat
  symbols : List Bytes

/-- `encode_with_symbol_size`. -/
def Fec.encodeWithSymbolSize (data : Bytes) (symbolSize repairSymbols : Nat) : Fec.Encoded :=
  if data = [] then ⟨List.replicate 12 0, 0, []⟩
  else
    { config := RaptorQ.serialize (RaptorQ.withDefaults data.length symbolSize)
      sourceLen := data.length
      symbols := RaptorQ.encodedPackets data symbolSize repairSymbols }

/-- `encode`. -/
def Fec.encode (data : Bytes) (repairSymbols : Nat) : Fec.Encoded :=
  Fec.encodeWithSymbolSize data DEFAULT_SYMBOL_SIZE repairSymbols

/-- The loop of `decode`: packets of another length or of a block that does not exist are skipped,
and the first object that the decoder answers with is cut to the source length. -/
def Fec.decodeFrom (packetLen maxBlocks sourceLen : Nat) :
    RaptorQ.Decoder → List Bytes → Option Bytes
  | _, [] => none
  | decoder, bytes :: symbols =>
    if bytes.length ≠ packetLen ∨ maxBlocks ≤ (bytes.headD 0).toNat then
      Fec.decodeFrom packetLen maxBlocks sourceLen decoder symbols
    else
      match RaptorQ.decode decoder bytes with
      | (some data, _) => some (data.take sourceLen)
      | (none, decoder) => Fec.decodeFrom packetLen maxBlocks sourceLen decoder symbols

/-- `decode`. -/
def Fec.decode (config : Bytes) (sourceLen : Nat) (symbols : List Bytes) : Option Bytes :=
  if sourceLen = 0 then some []
  else
    let oti := RaptorQ.deserialize config
    let symbolSize := RaptorQ.symbolSize oti
    if symbolSize = 0 then none
    else
      let kt := divCeil sourceLen symbolSize % 2 ^ 32
      let (_, _, zl, zs) := RaptorQ.partition kt (RaptorQ.sourceBlocks oti).toNat
      let packetLen := 4 + symbolSize
      Fec.decodeFrom packetLen (zl + zs) sourceLen (RaptorQ.newDecoder oti) symbols

/-! ## What the codec does -/

namespace RaptorQ

/-- The object that the decoder answers with first, when it is given all these packets. -/
def supply : Decoder → List Bytes → Option Bytes
  | _, [] => none
  | decoder, p :: ps =>
    match decode decoder p with
    | (some data, _) => some data
    | (none, decoder) => supply decoder ps

/-- How many of these packets the decoder takes before it answers. -/
def needed : Decoder → List Bytes → Nat
  | _, [] => 0
  | decoder, p :: ps =>
    match decode decoder p with
    | (some _, _) => 1
    | (none, decoder) => needed decoder ps + 1

/-- The transmission information of some content at the default symbol size. -/
def otiOf (data : Bytes) : Oti := withDefaults data.length DEFAULT_SYMBOL_SIZE

/-- The packets of some content with `repair` repair symbols a block. -/
def packetsOf (data : Bytes) (repair : Nat) : List Bytes :=
  encodedPackets data DEFAULT_SYMBOL_SIZE repair

/-- What is relied on of the codec for some content, which is split into `blocks` source blocks:
the sizes and the number of the packets, that each names one of the blocks, and that all of them
together decode. -/
structure Codes (data : Bytes) (repair blocks : Nat) : Prop where
  config : deserialize (serialize (otiOf data)) = otiOf data
  symbolSize : symbolSize (otiOf data) = DEFAULT_SYMBOL_SIZE
  sourceBlocks : (sourceBlocks (otiOf data)).toNat = blocks
  partition : ∀ kt, (partition kt blocks).2.2.1 + (partition kt blocks).2.2.2 = blocks
  count : (packetsOf data repair).length =
    divCeil data.length DEFAULT_SYMBOL_SIZE + repair * blocks
  length : ∀ p ∈ packetsOf data repair, p.length = 4 + DEFAULT_SYMBOL_SIZE
  block : ∀ p ∈ packetsOf data repair, (p.headD 0).toNat < blocks
  decodes : ∃ object, supply (newDecoder (otiOf data)) (packetsOf data repair) = some object ∧
    object.take data.length = data

theorem needed_le : ∀ (decoder : Decoder) (ps : List Bytes), needed decoder ps ≤ ps.length
  | _, [] => Nat.le_refl 0
  | decoder, p :: ps => by
    rw [needed, List.length_cons]
    split
    · omega
    · next d _ => exact Nat.succ_le_succ (needed_le d ps)

/-- A decoder that answers at all answers with the same object as soon as it has taken the packets
that it needs. -/
theorem supply_take : ∀ (decoder : Decoder) (ps : List Bytes) (k : Nat),
    (supply decoder ps).isSome →
    supply decoder (ps.take k) = if needed decoder ps ≤ k then supply decoder ps else none
  | _, [], _, h => by cases h
  | decoder, p :: ps, 0, _ => by
    rw [needed]
    split <;> simp [supply]
  | decoder, p :: ps, k + 1, h => by
    rw [supply] at h
    rw [List.take_succ_cons, supply, needed, supply]
    split
    · next he => simp
    · next d he =>
      rw [he] at h
      simpa using supply_take d ps k h

end RaptorQ

/-! ## What the wrapper does -/

/-- Packets of the right length and of existing blocks all reach the decoder. -/
theorem Fec.decodeFrom_eq {packetLen maxBlocks : Nat} (sourceLen : Nat) : ∀ {symbols : List Bytes}
    (decoder : RaptorQ.Decoder), (∀ p ∈ symbols, p.length = packetLen) →
    (∀ p ∈ symbols, (p.headD 0).toNat < maxBlocks) →
    Fec.decodeFrom packetLen maxBlocks sourceLen decoder symbols =
      (RaptorQ.supply decoder symbols).map fun object => object.take sourceLen
  | [], _, _, _ => rfl
  | p :: ps, decoder, hlen, hblock => by
    have hl := hlen p List.mem_cons_self
    have hb := hblock p List.mem_cons_self
    rw [Fec.decodeFrom, RaptorQ.supply, if_neg (by omega)]
    split
    · rfl
    · exact Fec.decodeFrom_eq sourceLen _ (fun q hq => hlen q (List.mem_cons_of_mem _ hq))
        fun q hq => hblock q (List.mem_cons_of_mem _ hq)

/-- Decoding a prefix of the symbols gives back the content once the prefix has as many symbols as
the decoder needs, and nothing before. -/
theorem Fec.decode_take {data : Bytes} {repair blocks : Nat} (h : RaptorQ.Codes data repair blocks)
    (hne : data ≠ []) (k : Nat) :
    Fec.decode (Fec.configFor data.length DEFAULT_SYMBOL_SIZE) data.length
        ((Fec.encode data repair).symbols.take k) =
      if RaptorQ.needed (RaptorQ.newDecoder (RaptorQ.otiOf data))
          (RaptorQ.packetsOf data repair) ≤ k
      then some data else none := by
  have hpos : data.length ≠ 0 := fun h0 => hne (List.length_eq_zero_iff.mp h0)
  have hsymbols : (Fec.encode data repair).symbols = RaptorQ.packetsOf data repair := by
    rw [Fec.encode, Fec.encodeWithSymbolSize, if_neg hne]
    rfl
  have hconfig : RaptorQ.deserialize (Fec.configFor data.length DEFAULT_SYMBOL_SIZE) =
    RaptorQ.otiOf data := h.config
  have hsome : (RaptorQ.supply (RaptorQ.newDecoder (RaptorQ.otiOf data))
      (RaptorQ.packetsOf data repair)).isSome := by
    obtain ⟨object, ho, -⟩ := h.decodes
    rw [ho]
    rfl
  rw [Fec.decode, if_neg hpos, hconfig]
  dsimp only
  rw [h.symbolSize, if_neg (by decide), h.sourceBlocks, hsymbols, h.partition,
    Fec.decodeFrom_eq data.length _ (fun p hp => h.length p (List.mem_of_mem_take hp))
    fun p hp => h.block p (List.mem_of_mem_take hp), RaptorQ.supply_take _ _ _ hsome]
  obtain ⟨object, ho, htake⟩ := h.decodes
  split
  · rw [ho, Option.map_some, htake]
  · rfl

/-- A code for content of one symbol, for runs on fixed inputs: every packet names block 0 and
carries the symbol, and the decoder answers after any one packet, as the crate's does on the source
symbol. -/
abbrev oneSymbolCode : RaptorQ where
  Oti := Nat × Nat
  withDefaults len size := (len, size)
  serialize oti := Codec.leBytes 8 oti.1 ++ Codec.leBytes 4 oti.2
  deserialize b := (Codec.leValue (b.take 8), Codec.leValue ((b.drop 8).take 4))
  symbolSize := Prod.snd
  sourceBlocks _ := 1
  partition kt z := ((kt + z - 1) / z, kt / z, kt % z, z - kt % z)
  encodedPackets data size repair := (List.range (1 + repair)).map fun i =>
    [0, 0, 0, UInt8.ofNat i] ++ (data ++ List.replicate (size - data.length) 0)
  Decoder := Unit
  newDecoder _ := ()
  decode _ p := (some (p.drop 4), ())

/-- The same packets, and a decoder that answers as the crate's does when it is given the source
symbols in order: after the last of them, with all of them. -/
abbrev sourceSymbolCode : RaptorQ :=
  { oneSymbolCode with
    Decoder := Nat × List Bytes
    newDecoder := fun oti => (divCeil oti.1 oti.2, [])
    decode := fun decoder p =>
      let received := decoder.2 ++ [p.drop 4]
      (if received.length = decoder.1 then some received.flatten else none, (decoder.1, received)) }

omit [RaptorQ] in
/-- It answers after the last of the source symbols. -/
theorem supply_sourceSymbols {count : Nat} {received packets : List Bytes} (hne : packets ≠ [])
    (hcount : received.length + packets.length = count) :
    @RaptorQ.supply sourceSymbolCode (count, received) packets =
      some (received ++ packets.map (List.drop 4)).flatten := by
  induction packets generalizing received with
  | nil => exact absurd rfl hne
  | cons p packets ih =>
    rw [List.length_cons] at hcount
    have hdecode : @RaptorQ.decode sourceSymbolCode (count, received) p =
      (if (received ++ [p.drop 4]).length = count then some (received ++ [p.drop 4]).flatten
        else none, (count, received ++ [p.drop 4])) := rfl
    unfold RaptorQ.supply
    rw [hdecode]
    by_cases hlast : packets = []
    · subst hlast
      have hfull : (received ++ [p.drop 4]).length = count := by
        rw [List.length_append, List.length_singleton]
        exact hcount
      rw [if_pos hfull]
      rfl
    · have hpos := List.length_pos_iff.mpr hlast
      have hmore : (received ++ [p.drop 4]).length ≠ count := by
        rw [List.length_append, List.length_singleton]
        omega
      have hrest := @ih (received ++ [p.drop 4]) hlast (by
        rw [List.length_append, List.length_singleton]
        omega)
      rw [if_neg hmore]
      dsimp only
      rw [hrest, List.append_assoc, List.map_cons, List.singleton_append]

omit [RaptorQ] in
/-- All source symbols of some content, in order, decode to what they carry. -/
theorem decode_sourceSymbols {n : Nat} (hn : n ≠ 0) (hlt : n < 2 ^ 64) {packets : List Bytes}
    (hne : packets ≠ []) (hcount : packets.length = divCeil n DEFAULT_SYMBOL_SIZE)
    (hlen : ∀ p ∈ packets, p.length = 4 + DEFAULT_SYMBOL_SIZE)
    (hblock : ∀ p ∈ packets, (p.headD 0).toNat < 1) :
    let _ := sourceSymbolCode
    Fec.decode (Fec.configFor n DEFAULT_SYMBOL_SIZE) n packets =
      some ((packets.map (List.drop 4)).flatten.take n) := by
  let _ := sourceSymbolCode
  have hoti : @Eq (Nat × Nat) (RaptorQ.deserialize (Fec.configFor n DEFAULT_SYMBOL_SIZE))
      (n, DEFAULT_SYMBOL_SIZE) := by
    have hsize : (Codec.leBytes 8 n ++ Codec.leBytes 4 DEFAULT_SYMBOL_SIZE).take 8 =
        Codec.leBytes 8 n := List.take_left' (Codec.length_leBytes 8 n)
    have hsymbol : (Codec.leBytes 8 n ++ Codec.leBytes 4 DEFAULT_SYMBOL_SIZE).drop 8 =
        Codec.leBytes 4 DEFAULT_SYMBOL_SIZE := List.drop_left' (Codec.length_leBytes 8 n)
    show (Codec.leValue (List.take 8 _), Codec.leValue ((List.drop 8 _).take 4)) = _
    rw [show Fec.configFor n DEFAULT_SYMBOL_SIZE =
      Codec.leBytes 8 n ++ Codec.leBytes 4 DEFAULT_SYMBOL_SIZE from rfl, hsize, hsymbol,
      Codec.leValue_leBytes hlt]
    rfl
  have hsupply := @supply_sourceSymbols (divCeil n DEFAULT_SYMBOL_SIZE) [] packets hne
    (by rw [List.length_nil, Nat.zero_add, hcount])
  have hblocks : ∀ kt : Nat, kt % 1 + (1 - kt % 1) = 1 := by
    intro kt
    omega
  intro _
  rw [Fec.decode, if_neg hn, hoti]
  show (if DEFAULT_SYMBOL_SIZE = 0 then none else Fec.decodeFrom (4 + DEFAULT_SYMBOL_SIZE)
    (_ % 1 + (1 - _ % 1)) n _ packets) = _
  rw [if_neg (by decide), hblocks, Fec.decodeFrom_eq n _ hlen hblock]
  exact congrArg (Option.map fun object => object.take n) hsupply

end Np2ptp
