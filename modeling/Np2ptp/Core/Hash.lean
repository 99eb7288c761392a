import Mathlib.Data.List.Nodup
import Mathlib.Data.Nat.Bitwise
import Np2ptp.Lib.HashTree
import Np2ptp.Lib.Utf8

/-!
# Content hashes and the Merkle tree

`np2ptp-core/src/hash.rs`. The digest function is the `blake3` crate's and stays a parameter; what
the repository computes from it is modelled: the domain-separated leaves and nodes, the levels with
an odd last node carried up, inclusion proofs and their check. An inclusion proof made from a list
of hashes always checks against the root of that list (`merkleVerify_merkleProof`), and a root
determines its list unless two different strings that were hashed collide (`merkleRoot_inj`).
-/

namespace Np2ptp

open Lib

/-- A 32-byte digest. -/
structure Hash where
  bytes : Bytes
  length_eq : bytes.length = 32
  deriving DecidableEq

/-- The `blake3` crate. -/
class Blake3 where
  hash : Bytes → Hash

/-- The digest function that a table of strings and their digests gives, for the runs on fixed
inputs: it is BLAKE3 where the table holds BLAKE3 digests. -/
abbrev Blake3.ofTable (table : List (Bytes × Hash)) : Blake3 where
  hash s := (table.lookup s).getD ⟨List.replicate 32 0, rfl⟩

/-- A string whose digest is not the default one is in the table with its digest. -/
theorem Blake3.mem_of_ofTable {table : List (Bytes × Hash)} {s : Bytes} {h : Hash}
    (hne : h ≠ ⟨List.replicate 32 0, rfl⟩) (he : (Blake3.ofTable table).hash s = h) :
    (s, h) ∈ table := by
  have hlook : (table.lookup s).getD ⟨List.replicate 32 0, rfl⟩ = h := he
  rcases hl : table.lookup s with _ | g
  · rw [hl] at hlook
    exact absurd hlook.symm hne
  · rw [hl] at hlook
    obtain ⟨before, after, rfl, -⟩ := List.lookup_eq_some_iff.mp hl
    rw [show g = h from hlook]
    exact List.mem_append_right _ List.mem_cons_self

/-- Where the digests of a table are distinct, a string with one of them is the one listed. -/
theorem Blake3.eq_of_ofTable {table : List (Bytes × Hash)} (hnodup : (table.map Prod.snd).Nodup)
    {s other : Bytes} {h : Hash} (hs : (s, h) ∈ table) (hne : h ≠ ⟨List.replicate 32 0, rfl⟩)
    (he : (Blake3.ofTable table).hash other = h) : other = s :=
  congrArg Prod.fst
    (List.inj_on_of_nodup_map hnodup (Blake3.mem_of_ofTable hne he) hs rfl)

theorem Hash.ext {h g : Hash} (e : h.bytes = g.bytes) : h = g := by
  cases h; cases g; simp_all

/-- `Hash::to_hex`. -/
def Hash.toHex (h : Hash) : Bytes := hexEncode h.bytes

/-- `Hash::from_hex`: 64 hexadecimal digits of either case. -/
def Hash.fromHex (s : Bytes) : Option Hash :=
  match hexDecode s with
  | none => none
  | some bs => if h : bs.length = 32 then some ⟨bs, h⟩ else none

theorem Hash.toHex_length (h : Hash) : h.toHex.length = 64 := by
  rw [Hash.toHex, hexEncode_length, h.length_eq]

/-- Parsing undoes printing. -/
theorem Hash.fromHex_toHex (h : Hash) : Hash.fromHex h.toHex = some h := by
  rw [Hash.fromHex, Hash.toHex, hexDecode_hexEncode]
  exact dif_pos h.length_eq

/-- What parses as a hash is 64 bytes long. -/
theorem Hash.length_of_fromHex {s : Bytes} {h : Hash} (e : Hash.fromHex s = some h) :
    s.length = 64 := by
  unfold Hash.fromHex at e
  split at e
  · cases e
  · next bs hbs =>
    split at e
    · next hlen => rw [length_of_hexDecode hbs, hlen]
    · cases e

section Merkle

variable [Blake3]

/-- `Hash::of`. -/
def Hash.of (data : Bytes) : Hash := Blake3.hash data

def LEAF_TAG : UInt8 := 0x00
def NODE_TAG : UInt8 := 0x01
def EMPTY_TAG : UInt8 := 0x02

def leafHash (chunk : Hash) : Hash := Hash.of (LEAF_TAG :: chunk.bytes)

def nodeHash (left right : Hash) : Hash := Hash.of (NODE_TAG :: (left.bytes ++ right.bytes))

/-- `ProofStep`: a sibling digest and the side it sits on. -/
structure ProofStep where
  siblingOnLeft : Bool
  hash : Hash
  deriving DecidableEq

/-- `MerkleProof`. -/
structure MerkleProof where
  index : Nat
  steps : List ProofStep
  deriving DecidableEq

/-- `build_levels`: the leaves first, each next level by pairing neighbours. -/
def buildLevels (chunkHashes : List Hash) : List (List Hash) :=
  levelsFrom nodeHash chunkHashes.length (chunkHashes.map leafHash)

/-- `merkle_root`: the one node of the last level. -/
def merkleRoot (chunkHashes : List Hash) : Hash :=
  if chunkHashes = [] then Hash.of [EMPTY_TAG]
  else ((buildLevels chunkHashes).getLastD []).headD (Hash.of [EMPTY_TAG])

/-- The loop of `merkle_proof` over all levels but the last. -/
def proofSteps : List (List Hash) → Nat → List ProofStep
  | level :: next :: levels, idx =>
    let sib := idx ^^^ 1
    let rest := proofSteps (next :: levels) (idx / 2)
    match level[sib]? with
    | some hash => ⟨decide (sib < idx), hash⟩ :: rest
    | none => rest
  | _, _ => []

/-- `merkle_proof`. -/
def merkleProof (chunkHashes : List Hash) (index : Nat) : Option MerkleProof :=
  if index < chunkHashes.length then
    some ⟨index, proofSteps (buildLevels chunkHashes) index⟩
  else none

/-- One step of the loop of `merkle_verify`. -/
def climb (acc : Hash) (step : ProofStep) : Hash :=
  if step.siblingOnLeft then nodeHash step.hash acc else nodeHash acc step.hash

/-- `merkle_verify`. -/
def merkleVerify (chunkHash : Hash) (proof : MerkleProof) (root : Hash) : Bool :=
  proof.steps.foldl climb (leafHash chunkHash) == root

/-! ## Proofs check -/

section Steps

variable {level next : List Hash} {levels : List (List Hash)} {k : Nat} {sib : Hash}

omit [Blake3] in
/-- The sibling of an even index stands right of it. -/
theorem proofSteps_of_right (h : level[2 * k + 1]? = some sib) :
    proofSteps (level :: next :: levels) (2 * k) =
      ⟨false, sib⟩ :: proofSteps (next :: levels) k := by
  have hsib : (2 * k) ^^^ 1 = 2 * k + 1 := Nat.xor_one_of_even (even_two_mul k)
  have hhalf : 2 * k / 2 = k := by omega
  have hside : ¬2 * k + 1 < 2 * k := by omega
  rw [proofSteps]
  simp only [hsib, hhalf, h, hside, decide_false]

omit [Blake3] in
/-- A node without a neighbour is carried, and adds no step. -/
theorem proofSteps_of_carried (h : level[2 * k + 1]? = none) :
    proofSteps (level :: next :: levels) (2 * k) = proofSteps (next :: levels) k := by
  have hsib : (2 * k) ^^^ 1 = 2 * k + 1 := Nat.xor_one_of_even (even_two_mul k)
  have hhalf : 2 * k / 2 = k := by omega
  rw [proofSteps]
  simp only [hsib, hhalf, h]

omit [Blake3] in
/-- The sibling of an odd index stands left of it. -/
theorem proofSteps_of_left (h : level[2 * k]? = some sib) :
    proofSteps (level :: next :: levels) (2 * k + 1) =
      ⟨true, sib⟩ :: proofSteps (next :: levels) k := by
  have hsib : (2 * k + 1) ^^^ 1 = 2 * k := by
    rw [Nat.xor_one_of_odd (odd_two_mul_add_one k), Nat.add_sub_cancel]
  have hhalf : (2 * k + 1) / 2 = k := by omega
  have hside : 2 * k < 2 * k + 1 := by omega
  rw [proofSteps]
  simp only [hsib, hhalf, h, hside, decide_true]

end Steps

/-- Climbing the steps of a proof from a node of a level reaches the top. -/
theorem foldl_climb_proofSteps : ∀ (n : Nat) (l : List Hash) (idx : Nat) (acc : Hash),
    l.length ≤ n → l[idx]? = some acc →
    topFrom nodeHash n l = [(proofSteps (levelsFrom nodeHash n l) idx).foldl climb acc]
  | 0, l, idx, acc, hn, hidx => by
    rw [List.length_eq_zero_iff.mp (Nat.le_zero.mp hn)] at hidx
    cases hidx
  | n + 1, l, idx, acc, hn, hidx => by
    have hlt : idx < l.length := (List.getElem?_eq_some_iff.mp hidx).1
    unfold topFrom levelsFrom
    split
    · next h1 =>
      have hlen : (pairUp nodeHash l).length ≤ n := by rw [length_pairUp]; omega
      obtain ⟨rest, hlevels⟩ := exists_levelsFrom nodeHash n (pairUp nodeHash l)
      obtain ⟨k, rfl | rfl⟩ := Nat.even_or_odd' idx
      · have hup := getElem?_pairUp nodeHash l k
        rw [hidx] at hup
        rw [hlevels]
        cases hs : l[2 * k + 1]? with
        | none =>
          rw [hs] at hup
          rw [proofSteps_of_carried hs, ← hlevels]
          exact foldl_climb_proofSteps n _ k acc hlen hup
        | some sib =>
          rw [hs] at hup
          rw [proofSteps_of_right hs, ← hlevels, List.foldl_cons]
          exact foldl_climb_proofSteps n _ k _ hlen hup
      · have hs : l[2 * k]? = some l[2 * k] := List.getElem?_eq_getElem (by omega)
        have hup := getElem?_pairUp nodeHash l k
        rw [hs, hidx] at hup
        rw [hlevels, proofSteps_of_left hs, ← hlevels, List.foldl_cons]
        exact foldl_climb_proofSteps n _ k _ hlen hup
    · next h1 =>
      have hl : l.length = 1 := by omega
      obtain ⟨a, rfl⟩ := List.length_eq_one_iff.mp hl
      have h0 : idx = 0 := by simpa using hlt
      subst h0
      cases hidx
      rfl

theorem merkleRoot_of_ne_nil {hs : List Hash} (h : hs ≠ []) :
    topFrom nodeHash hs.length (hs.map leafHash) = [merkleRoot hs] := by
  have hlen := topFrom_length nodeHash (n := hs.length) (l := hs.map leafHash) (by simpa)
    (by simp)
  obtain ⟨r, hr⟩ := List.length_eq_one_iff.mp hlen
  rw [merkleRoot, if_neg h, buildLevels, List.getLastD_eq_getLast?, getLast?_levelsFrom, hr]
  rfl

/-- Inclusion proofs are complete: climbing the proof of an index reaches the root of the list. -/
theorem merkleVerify_merkleProof {hs : List Hash} {i : Nat} {h : Hash} (hi : hs[i]? = some h)
    (root : Hash) : ∃ p, merkleProof hs i = some p ∧
      merkleVerify h p root = decide (merkleRoot hs = root) := by
  have hlt : i < hs.length := (List.getElem?_eq_some_iff.mp hi).1
  have hne : hs ≠ [] := List.ne_nil_of_length_pos (by omega)
  refine ⟨_, if_pos hlt, ?_⟩
  have hclimb := foldl_climb_proofSteps hs.length (hs.map leafHash) i (leafHash h) (by simp)
    (by rw [List.getElem?_map, hi]; rfl)
  rw [merkleRoot_of_ne_nil hne, List.cons.injEq] at hclimb
  rw [merkleVerify, buildLevels, ← hclimb.1]
  exact Bool.beq_eq_decide_eq _ _

/-! ## Roots determine their lists -/

/-- The strings hashed for leaves and nodes: the tags keep them apart, and the digests in them
have a fixed length. -/
def encoding : HashTree.Encoding Hash Hash Bytes where
  leaf h := LEAF_TAG :: h.bytes
  node l r := NODE_TAG :: (l.bytes ++ r.bytes)
  leaf_inj a b e := Hash.ext (List.cons.inj e).2
  node_inj a b c d e := by
    have h := List.append_inj (List.cons.inj e).2 (a.length_eq.trans c.length_eq.symm)
    exact ⟨Hash.ext h.1, Hash.ext h.2⟩
  leaf_ne_node a b c e := absurd (List.cons.inj e).1 (by decide)

/-- The tree over a list of chunk hashes, in a list of one. -/
def treeOver (hs : List Hash) : List (HashTree Hash) :=
  topFrom HashTree.node hs.length (hs.map HashTree.leaf)

/-- Every string that `merkle_root` hashes for a list. -/
def merkleStrings (hs : List Hash) : List Bytes :=
  if hs = [] then [[EMPTY_TAG]]
  else (treeOver hs).flatMap (HashTree.preimages encoding Hash.of)

theorem treeOver_spec {hs : List Hash} (h : hs ≠ []) : ∃ t : HashTree Hash, treeOver hs = [t] ∧
    t.leaves = hs ∧ t.digest encoding Hash.of = merkleRoot hs := by
  have hlen := topFrom_length HashTree.node (n := hs.length) (l := hs.map HashTree.leaf) (by simpa)
    (by simp)
  obtain ⟨t, ht⟩ := List.length_eq_one_iff.mp hlen
  refine ⟨t, ht, ?_, ?_⟩
  · have hleaves := HashTree.leaves_topFrom hs.length (hs.map HashTree.leaf)
    rw [ht] at hleaves
    simpa [List.flatMap_map, HashTree.leaves] using hleaves
  · have hmap := map_topFrom HashTree.node (g := nodeHash) (f := HashTree.digest encoding Hash.of)
      (fun _ _ => rfl) hs.length (hs.map HashTree.leaf)
    have hleaf : (hs.map HashTree.leaf).map (HashTree.digest encoding Hash.of) =
        hs.map leafHash := by
      rw [List.map_map]
      rfl
    rw [ht, hleaf, merkleRoot_of_ne_nil h] at hmap
    simpa using hmap

/-- The string at the root of a tree is no empty-tree string. -/
theorem digest_ne_empty (t : HashTree Hash) (h : t.digest encoding Hash.of = Hash.of [EMPTY_TAG]) :
    Collision Hash.of (t.preimages encoding Hash.of) [[EMPTY_TAG]] := by
  cases t with
  | leaf a =>
    exact ⟨_, List.mem_cons_self, _, List.mem_cons_self,
      fun e => absurd (List.cons.inj e).1 (by decide), h⟩
  | node l r =>
    exact ⟨_, List.mem_cons_self, _, List.mem_cons_self,
      fun e => absurd (List.cons.inj e).1 (by decide), h⟩

/-- A Merkle root determines the list of chunk hashes, of whatever length, or two different
strings hashed for the two roots have one digest. -/
theorem merkleRoot_inj {as bs : List Hash} (h : merkleRoot as = merkleRoot bs) :
    as = bs ∨ Collision Hash.of (merkleStrings as) (merkleStrings bs) := by
  by_cases ha : as = []
  · by_cases hb : bs = []
    · exact .inl (ha.trans hb.symm)
    · obtain ⟨t, ht, -, hdig⟩ := treeOver_spec hb
      rw [← h, merkleRoot, if_pos ha] at hdig
      right
      rw [merkleStrings, if_pos ha, merkleStrings, if_neg hb, ht, List.flatMap_singleton]
      exact (digest_ne_empty t hdig).symm
  · obtain ⟨s, hs, hsl, hsd⟩ := treeOver_spec ha
    by_cases hb : bs = []
    · rw [h, merkleRoot, if_pos hb] at hsd
      right
      rw [merkleStrings, if_neg ha, merkleStrings, if_pos hb, hs, List.flatMap_singleton]
      exact digest_ne_empty s hsd
    · obtain ⟨t, ht, htl, htd⟩ := treeOver_spec hb
      rcases HashTree.digest_inj encoding Hash.of s t (by rw [hsd, htd, h]) with rfl | hc
      · exact .inl (hsl.symm.trans htl)
      · right
        rwa [merkleStrings, if_neg ha, merkleStrings, if_neg hb, hs, ht, List.flatMap_singleton,
          List.flatMap_singleton]

end Merkle

/-! ## The digests of a one-byte chunk

For runs on fixed inputs: BLAKE3 on the chunk `x` and on the leaf over it. -/

/-- The digest of the one byte `x`. -/
def digestOfX : Hash where
  bytes :=
    [0x3a, 0xe7, 0xd8, 0x05, 0xf6, 0x78, 0x9a, 0x64, 0x02, 0xac, 0xb7, 0x0a, 0xd4, 0x09, 0x6a,
     0x85, 0xa5, 0x6b, 0xf6, 0x80, 0x4e, 0xaf, 0x25, 0xc0, 0x49, 0x3a, 0xc6, 0x97, 0x54, 0x8d,
     0x30, 0xb5]
  length_eq := rfl

/-- The root over the one chunk `x`. -/
def rootOfX : Hash where
  bytes :=
    [0x5f, 0x23, 0xd1, 0x37, 0x49, 0x30, 0xec, 0x15, 0xbf, 0x45, 0x9c, 0xdb, 0x7f, 0x43, 0xf7,
     0x0c, 0x51, 0x3c, 0x46, 0xfd, 0x71, 0xa4, 0xb1, 0x46, 0x72, 0x64, 0x8e, 0x74, 0x31, 0x56,
     0x49, 0xbc]
  length_eq := rfl

/-- BLAKE3 on these strings. -/
abbrev blake3OfX : Blake3 := .ofTable [([120], digestOfX), (LEAF_TAG :: digestOfX.bytes, rootOfX)]

theorem Hash.of_ofTable (table : List (Bytes × Hash)) (s : Bytes) :
    @Hash.of (Blake3.ofTable table) s = (table.lookup s).getD ⟨List.replicate 32 0, rfl⟩ := rfl

/-- The one byte `x` is the only string with its digest. -/
theorem eq_of_digestOfX {other : Bytes} (h : blake3OfX.hash other = digestOfX) : other = [120] :=
  Blake3.eq_of_ofTable (by decide) List.mem_cons_self (by decide) h

/-! ## The digests of two such chunks -/

/-- The digest of the bytes `xx`. -/
def digestOfXX : Hash where
  bytes :=
    [0xe0, 0xfe, 0x5e, 0x38, 0x43, 0x30, 0xd8, 0xe1, 0x29, 0x57, 0xc2, 0xe1, 0x2b, 0xa7, 0xc6,
     0x33, 0x17, 0xa0, 0x08, 0xc7, 0xf9, 0x8a, 0x8e, 0xb0, 0x0f, 0xe0, 0x27, 0x71, 0x1f, 0xf7,
     0xf1, 0x0a]
  length_eq := rfl

/-- The root over the one chunk `xx`. -/
def rootOfXX : Hash where
  bytes :=
    [0x23, 0x47, 0x10, 0x94, 0xe1, 0xaa, 0x3b, 0xe1, 0xba, 0xbd, 0xaf, 0xd7, 0xea, 0x41, 0x74,
     0x59, 0x19, 0x61, 0xd4, 0x25, 0x60, 0xfc, 0xb2, 0x06, 0x48, 0x14, 0x16, 0x6f, 0xe3, 0x46,
     0x0d, 0xc7]
  length_eq := rfl

/-- The root over the two chunks `x` and `x`. -/
def rootOfXAndX : Hash where
  bytes :=
    [0x09, 0xa5, 0xa6, 0xce, 0x43, 0x44, 0x31, 0x33, 0x59, 0xe6, 0xdc, 0xec, 0xe0, 0x6b, 0x6e,
     0xc3, 0xdd, 0x7c, 0xac, 0xbc, 0xc8, 0x48, 0x6c, 0xf8, 0xce, 0xfc, 0x82, 0xa5, 0x31, 0x31,
     0x87, 0x5f]
  length_eq := rfl

/-- BLAKE3 on these strings. -/
abbrev blake3OfXX : Blake3 :=
  .ofTable [([120], digestOfX), (LEAF_TAG :: digestOfX.bytes, rootOfX), ([120, 120], digestOfXX),
    (LEAF_TAG :: digestOfXX.bytes, rootOfXX),
    (NODE_TAG :: (rootOfX.bytes ++ rootOfX.bytes), rootOfXAndX)]

/-! ## The digests of three chunks -/

/-- The digest of the one byte `y`. -/
def digestOfY : Hash where
  bytes :=
    [0x08, 0x11, 0x2a, 0x9e, 0x33, 0x4c, 0xe7, 0x30, 0x42, 0xb5, 0x31, 0xc2, 0x56, 0x68, 0xcf,
     0x5c, 0xb1, 0x2a, 0x1e, 0xe0, 0x40, 0xa4, 0x32, 0x6a, 0xfe, 0xac, 0x06, 0x54, 0x61, 0x07,
     0x9a, 0x06]
  length_eq := rfl

/-- The root over the one chunk `y`. -/
def rootOfY : Hash where
  bytes :=
    [0x4c, 0x58, 0x34, 0x0a, 0xbf, 0xd0, 0x84, 0x85, 0x08, 0xc7, 0xd8, 0x77, 0x25, 0x2e, 0xb8,
     0x4f, 0x1f, 0xc7, 0x2f, 0x9a, 0xaa, 0x9d, 0x50, 0xd0, 0xf5, 0x8a, 0x14, 0xac, 0xf5, 0xf7,
     0x4e, 0xfe]
  length_eq := rfl

/-- The node over the chunks `x` and `xx`. -/
def nodeOfXAndXX : Hash where
  bytes :=
    [0xd2, 0xc9, 0x8d, 0xb9, 0x39, 0xc4, 0xd5, 0x44, 0xd0, 0x4b, 0xea, 0xd6, 0x2b, 0xf2, 0x03,
     0xd1, 0xfe, 0xc8, 0x1b, 0x91, 0x06, 0xad, 0xb6, 0x61, 0x44, 0xe2, 0x87, 0x43, 0xba, 0xb6,
     0x31, 0xe6]
  length_eq := rfl

/-- The root over the three chunks `x`, `xx` and `y`, the last of which is carried up. -/
def rootOfThree : Hash where
  bytes :=
    [0xc4, 0xb7, 0x20, 0x2d, 0x24, 0x2b, 0xa8, 0xf3, 0x7f, 0x94, 0xfa, 0xc0, 0x62, 0x37, 0x72,
     0x06, 0x85, 0xc7, 0x5a, 0x62, 0xb0, 0xb7, 0xfe, 0x9e, 0x45, 0xc9, 0xb3, 0x23, 0x70, 0x5b,
     0xd5, 0x82]
  length_eq := rfl

/-- BLAKE3 on these strings. -/
abbrev blake3OfThree : Blake3 :=
  .ofTable [([120], digestOfX), ([120, 120], digestOfXX), ([121], digestOfY),
    (LEAF_TAG :: digestOfX.bytes, rootOfX), (LEAF_TAG :: digestOfXX.bytes, rootOfXX),
    (LEAF_TAG :: digestOfY.bytes, rootOfY),
    (NODE_TAG :: (rootOfX.bytes ++ rootOfXX.bytes), nodeOfXAndXX),
    (NODE_TAG :: (nodeOfXAndXX.bytes ++ rootOfY.bytes), rootOfThree)]

/-- The chunks `x`, `xx` and `y` are the only strings with their digests. -/
theorem eq_of_digestOfThree {p other : Bytes} (hp : p ∈ [[120], [120, 120], [121]])
    (h : blake3OfThree.hash other = blake3OfThree.hash p) : other = p := by
  simp only [List.mem_cons, List.not_mem_nil, or_false] at hp
  rcases hp with rfl | rfl | rfl
  all_goals
    exact Blake3.eq_of_ofTable (by decide) (by decide) (by decide) h

end Np2ptp
