import Np2ptp.Core.Hash

/-!
# What a Merkle root binds

The strings that `merkle_root` and `merkle_verify` hash, read off the loops themselves, and the
promises of the tree in terms of them. None assumes anything of the hash function: where a promise
fails, a string hashed by one of the computations and a different string hashed by the other have
one digest. The proofs that `merkle_proof` makes are accepted without any such exception, and no
others are, but for the index that they carry (`leads_of_merkleVerify`).
-/

namespace Np2ptp

open Lib

variable [Blake3]

/-- The strings that `merkle_root` hashes: `leaf_hash` for every chunk hash, `node_hash` for every
pair of neighbours of a level, or the one for an empty list. -/
def rootStrings (chunkHashes : List Hash) : List Bytes :=
  if chunkHashes = [] then [[EMPTY_TAG]]
  else chunkHashes.map encoding.leaf ++
    (buildLevels chunkHashes).flatMap (HashTree.pairStrings encoding)

/-- The strings that the loop of `merkle_verify` hashes. -/
def climbStrings : Hash → List ProofStep → List Bytes
  | _, [] => []
  | acc, step :: steps =>
    (if step.siblingOnLeft then encoding.node step.hash acc else encoding.node acc step.hash) ::
      climbStrings (climb acc step) steps

/-- The strings that `merkle_verify` hashes. -/
def verifyStrings (chunkHash : Hash) (proof : MerkleProof) : List Bytes :=
  encoding.leaf chunkHash :: climbStrings (leafHash chunkHash) proof.steps

/-- The strings of the tree over a list are hashed by `merkle_root`. -/
theorem merkleStrings_subset (hs : List Hash) : merkleStrings hs ⊆ rootStrings hs := by
  rw [merkleStrings, rootStrings]
  split
  · exact fun _ h => h
  · have hleaf : (hs.map HashTree.leaf).flatMap (HashTree.preimages encoding Hash.of) =
        hs.map encoding.leaf := by
      rw [List.flatMap_map, ← List.flatMap_pure_eq_map]
      rfl
    have hdigest : (hs.map HashTree.leaf).map (HashTree.digest encoding Hash.of) =
        hs.map leafHash := by
      rw [List.map_map]
      rfl
    have h := HashTree.preimages_topFrom encoding Hash.of hs.length (hs.map HashTree.leaf)
    rw [hleaf, hdigest] at h
    exact h

/-- The root binds the whole ordered list, whatever the lengths: lists with one root are one list,
or their computations contain a collision. -/
theorem merkle_root_binds {as bs : List Hash} (h : merkleRoot as = merkleRoot bs) :
    as = bs ∨ Collision Hash.of (rootStrings as) (rootStrings bs) :=
  (merkleRoot_inj h).imp_right fun hc => hc.mono (merkleStrings_subset as) (merkleStrings_subset bs)

omit [Blake3] in
/-- The chunks of three files, the last of which is carried up, under the root of their hashes. -/
theorem merkle_root_binds_three :
    let _ := blake3OfThree
    let hashes := [[120], [120, 120], [121]].map Hash.of
    hashes = [digestOfX, digestOfXX, digestOfY] ∨
      Collision Hash.of (rootStrings hashes) (rootStrings [digestOfX, digestOfXX, digestOfY]) := by
  intro _ hashes
  have hroot : merkleRoot hashes = merkleRoot [digestOfX, digestOfXX, digestOfY] := by
    decide +kernel
  exact merkle_root_binds hroot

/-! ## Inclusion proofs -/

/-- A step of a proof, as the tree library has it. -/
def ProofStep.toPair (step : ProofStep) : Bool × Hash := (step.siblingOnLeft, step.hash)

omit [Blake3] in
theorem ProofStep.toPair_injective : Function.Injective ProofStep.toPair := by
  rintro ⟨s, h⟩ ⟨s', h'⟩ he
  cases he
  rfl

theorem climb_eq_rise (acc : Hash) (step : ProofStep) :
    climb acc step = HashTree.rise encoding Hash.of acc step.toPair := by
  unfold climb HashTree.rise HashTree.riseString
  split <;> next h => simp [ProofStep.toPair, h]; rfl

theorem climbStrings_eq (acc : Hash) (steps : List ProofStep) :
    climbStrings acc steps =
      HashTree.riseStrings encoding Hash.of acc (steps.map ProofStep.toPair) := by
  induction steps generalizing acc with
  | nil => rfl
  | cons step steps ih =>
    rw [climbStrings, ih, climb_eq_rise, List.map_cons, HashTree.riseStrings]
    rfl

theorem foldl_climb_eq (acc : Hash) (steps : List ProofStep) :
    steps.foldl climb acc =
      (steps.map ProofStep.toPair).foldl (HashTree.rise encoding Hash.of) acc := by
  rw [List.foldl_map]
  congr 1
  funext acc step
  exact climb_eq_rise acc step

/-- Inclusion proofs are complete: every index of a list, of whatever length, has a proof that is
accepted, and the loop over the levels ends, under any bound that lets it, with the root alone. -/
theorem merkle_proof_complete {l : List Hash} (hne : l ≠ []) :
    (∀ i h, l[i]? = some h →
      ∃ p, merkleProof l i = some p ∧ merkleVerify h p (merkleRoot l) = true) ∧
    (buildLevels l).getLast? = some [merkleRoot l] ∧
    ∀ n, l.length ≤ n → levelsFrom nodeHash n (l.map leafHash) = buildLevels l := by
  refine ⟨fun i h hi => ?_, ?_, fun n hn => ?_⟩
  · obtain ⟨p, hp, hv⟩ := merkleVerify_merkleProof hi (merkleRoot l)
    exact ⟨p, hp, hv.trans (decide_eq_true rfl)⟩
  · rw [buildLevels, getLast?_levelsFrom, merkleRoot_of_ne_nil hne]
  · have hlen : (l.map leafHash).length = l.length := List.length_map ..
    exact levelsFrom_of_le nodeHash (hlen.trans_le hn) hlen.le

omit [Blake3] in
/-- The tree over three chunks, where the third is carried up. -/
theorem merkle_proof_complete_three :
    let _ := blake3OfX
    (∀ i h, [digestOfX, rootOfX, digestOfX][i]? = some h →
      ∃ p, merkleProof [digestOfX, rootOfX, digestOfX] i = some p ∧
        merkleVerify h p (merkleRoot [digestOfX, rootOfX, digestOfX]) = true) ∧
    (buildLevels [digestOfX, rootOfX, digestOfX]).getLast? =
      some [merkleRoot [digestOfX, rootOfX, digestOfX]] ∧
    ∀ n, 3 ≤ n → levelsFrom nodeHash n ([digestOfX, rootOfX, digestOfX].map leafHash) =
      buildLevels [digestOfX, rootOfX, digestOfX] := by
  let _ := blake3OfX
  exact merkle_proof_complete (l := [digestOfX, rootOfX, digestOfX]) (by decide)

/-! ## What is accepted -/

/-- The steps that `merkle_proof` makes for an index, as the tree library has them. -/
def stepsAbove (levels : List (List Hash)) (idx : Nat) : List (Bool × Hash) :=
  (proofSteps levels idx).map ProofStep.toPair

/-- The tree and the levels agree on the way up from every leaf: the trees of a level with the steps
above their index make up the tree at the top. -/
theorem climbs_topFrom : ∀ (n : Nat) (ts : List (HashTree Hash)), ts.length ≤ n →
    (topFrom HashTree.node n ts).flatMap (HashTree.climbs encoding Hash.of) =
      HashTree.climbsUnder encoding Hash.of
        (stepsAbove (levelsFrom nodeHash n (ts.map (HashTree.digest encoding Hash.of)))) 0 ts
  | 0, ts, hn => by
    obtain rfl := List.length_eq_zero_iff.mp (Nat.le_zero.mp hn)
    rfl
  | n + 1, ts, hn => by
    unfold topFrom levelsFrom
    rw [List.length_map]
    split
    · next h1 =>
      have hmap : (pairUp HashTree.node ts).map (HashTree.digest encoding Hash.of) =
          pairUp nodeHash (ts.map (HashTree.digest encoding Hash.of)) :=
        map_pairUp HashTree.node (fun _ _ => rfl) ts
      have hlen : (pairUp HashTree.node ts).length ≤ n := by rw [length_pairUp]; omega
      have hget : ∀ {i : Nat} {t : HashTree Hash}, ts[i]? = some t →
          (ts.map (HashTree.digest encoding Hash.of))[i]? = some (t.digest encoding Hash.of) := by
        intro i t h
        rw [List.getElem?_map, h]
        rfl
      obtain ⟨rest, hlevels⟩ := exists_levelsFrom nodeHash n
        (pairUp nodeHash (ts.map (HashTree.digest encoding Hash.of)))
      rw [climbs_topFrom n _ hlen, hmap, hlevels]
      refine HashTree.climbsUnder_pairUp encoding Hash.of ts 0 (fun k a b ha hb => ?_)
        fun k a ha hb => ?_
      · rw [Nat.zero_add]
        simp only [stepsAbove]
        rw [proofSteps_of_right (hget hb), proofSteps_of_left (hget ha)]
        exact ⟨rfl, rfl⟩
      · have hnone : (ts.map (HashTree.digest encoding Hash.of))[2 * k + 1]? = none := by
          rw [List.getElem?_map, hb]
          rfl
        rw [Nat.zero_add, stepsAbove, proofSteps_of_carried hnone]
        rfl
    · cases ts with
      | nil => rfl
      | cons t ts =>
        obtain rfl : ts = [] := List.length_eq_zero_iff.mp (by rw [List.length_cons] at *; omega)
        simp [HashTree.climbsUnder, stepsAbove, proofSteps]

/-- The steps of a proof are those that `merkle_proof` makes for a place of the hash in the list. -/
def MerkleProof.Leads (p : MerkleProof) (l : List Hash) (h : Hash) (j : Nat) : Prop :=
  l[j]? = some h ∧ (merkleProof l j).map MerkleProof.steps = some p.steps

/-- What verifies is a proof that `merkle_proof` makes for the hash, but for the index it is said to
be of, or the check and the computation of the root contain a collision. -/
theorem leads_of_merkleVerify {l : List Hash} {h : Hash} {p : MerkleProof}
    (hv : merkleVerify h p (merkleRoot l) = true) :
    (∃ j, p.Leads l h j) ∨ Collision Hash.of (verifyStrings h p) (rootStrings l) := by
  have hfold := beq_iff_eq.mp hv
  rw [foldl_climb_eq] at hfold
  have hstrings : verifyStrings h p = encoding.leaf h ::
      HashTree.riseStrings encoding Hash.of (leafHash h) (p.steps.map ProofStep.toPair) := by
    rw [verifyStrings, climbStrings_eq]
  rw [hstrings]
  by_cases hl : l = []
  · -- the root of nothing is the digest of a string that no proof makes
    obtain ⟨x, hx, hdigest, htag⟩ := HashTree.exists_string_of_rise encoding Hash.of h
      (p.steps.map ProofStep.toPair)
    have hempty : merkleRoot l = Hash.of [EMPTY_TAG] := by rw [merkleRoot, if_pos hl]
    refine .inr ⟨x, hx, [EMPTY_TAG], by rw [rootStrings, if_pos hl]; exact List.mem_cons_self, ?_,
      hdigest.trans (hfold.trans hempty)⟩
    rcases htag with rfl | ⟨a, b, rfl⟩
    · exact fun e => absurd (List.cons.inj e).1 (by decide)
    · exact fun e => absurd (List.cons.inj e).1 (by decide)
  · obtain ⟨t, ht, -, hdigest⟩ := treeOver_spec hl
    have hsub := merkleStrings_subset l
    rw [merkleStrings, if_neg hl, ht, List.flatMap_singleton] at hsub
    rcases HashTree.mem_climbs_of_rise encoding Hash.of h _ t (hfold.trans hdigest.symm) with
      hm | hc
    · left
      have hclimbs := climbs_topFrom l.length (l.map HashTree.leaf) (List.length_map ..).le
      have hleaves : (l.map HashTree.leaf).map (HashTree.digest encoding Hash.of) =
          l.map leafHash := by
        rw [List.map_map]
        rfl
      rw [← treeOver, ht, List.flatMap_singleton, hleaves] at hclimbs
      rw [hclimbs] at hm
      obtain ⟨j, hj, hsteps⟩ := (HashTree.mem_climbsUnder_leaves encoding Hash.of).mp hm
      refine ⟨j, hj, ?_⟩
      rw [merkleProof, if_pos (List.getElem?_eq_some_iff.mp hj).1]
      rw [Nat.zero_add] at hsteps
      exact congrArg some (List.map_injective_iff.mpr ProofStep.toPair_injective hsteps)
    · exact .inr (hc.mono (fun _ hx => hx) hsub)

/-- A proof that leads to a place of the hash verifies. -/
theorem MerkleProof.Leads.merkleVerify {l : List Hash} {h : Hash} {p : MerkleProof} {j : Nat}
    (hp : p.Leads l h j) : merkleVerify h p (merkleRoot l) = true := by
  obtain ⟨q, hq, hv⟩ := merkleVerify_merkleProof hp.1 (merkleRoot l)
  have hsteps := hp.2
  rw [hq, Option.map_some, Option.some.injEq] at hsteps
  rw [Np2ptp.merkleVerify, ← hsteps]
  exact hv.trans (decide_eq_true rfl)

/-- Inclusion proofs are sound against whoever makes them: what verifies against the root of a list
is in the list, or the check and the computation of the root contain a collision. -/
theorem merkle_verify_sound {l : List Hash} {h : Hash} {p : MerkleProof}
    (hv : merkleVerify h p (merkleRoot l) = true) :
    h ∈ l ∨ Collision Hash.of (verifyStrings h p) (rootStrings l) :=
  (leads_of_merkleVerify hv).imp_left fun ⟨_, hp⟩ => List.mem_of_getElem? hp.1

omit [Blake3] in
/-- The proof of the second of three chunks: the first is to the left of it, and the third, which is
carried up, to the right of both. -/
theorem merkle_verify_sound_three :
    let _ := blake3OfThree
    let proof : MerkleProof := ⟨1, [⟨true, rootOfX⟩, ⟨false, rootOfY⟩]⟩
    merkleRoot [digestOfX, digestOfXX, digestOfY] = rootOfThree ∧
      (digestOfXX ∈ [digestOfX, digestOfXX, digestOfY] ∨
        Collision Hash.of (verifyStrings digestOfXX proof)
          (rootStrings [digestOfX, digestOfXX, digestOfY])) := by
  intro _ proof
  have hverify : merkleVerify digestOfXX proof
      (merkleRoot [digestOfX, digestOfXX, digestOfY]) = true := by
    decide +kernel
  exact ⟨by decide +kernel, merkle_verify_sound hverify⟩

/-! ## The index -/

/-- An accepted proof is one of its index if and only if the hash stands there wherever the steps
lead to, or there is a collision: the check does not look at the index. -/
theorem merkle_verify_index_iff (l : List Hash) (h : Hash) (p : MerkleProof) :
    Collision Hash.of (verifyStrings h p) (rootStrings l) ∨
      ((merkleVerify h p (merkleRoot l) = true → l[p.index]? = some h) ↔
        ∀ j, p.Leads l h j → l[p.index]? = some h) := by
  by_cases hc : Collision Hash.of (verifyStrings h p) (rootStrings l)
  · exact .inl hc
  · refine .inr ⟨fun hclaim j hp => hclaim hp.merkleVerify, fun hplaces hv => ?_⟩
    obtain ⟨j, hp⟩ := (leads_of_merkleVerify hv).resolve_right hc
    exact hplaces j hp

omit [Blake3] in
/-- The empty proof of the one chunk `x` verifies as one of the index 1, and no strings collide. -/
theorem merkle_verify_ignores_index :
    let _ := blake3OfX
    digestOfX ∈ [digestOfX] ∧
      merkleVerify digestOfX ⟨1, []⟩ (merkleRoot [digestOfX]) = true ∧
      [digestOfX][1]? ≠ some digestOfX ∧
      ¬Collision Hash.of (verifyStrings digestOfX ⟨1, []⟩) (rootStrings [digestOfX]) := by
  let _ := blake3OfX
  refine ⟨List.mem_cons_self, by decide, by decide, ?_⟩
  have hroot : rootStrings [digestOfX] = [encoding.leaf digestOfX] := rfl
  rintro ⟨x, hx, y, hy, hne, -⟩
  rw [hroot] at hy
  exact hne ((List.mem_singleton.mp hx).trans (List.mem_singleton.mp hy).symm)

end Np2ptp
