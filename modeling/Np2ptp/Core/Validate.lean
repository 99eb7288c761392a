import Np2ptp.Core.Reconstruct

/-!
# What `validate` is exact about

`validate` adds with saturation and with checks, on values that a peer chooses. For as many chunks
as fit into memory it says exactly what it would say over the integers (`validate_exact`): the
declared lengths make up the total, and the files tile the chunk list (`Tiling`), each as long as
its chunks. The loops that come after it then never leave the list or the stream.
-/

namespace Np2ptp

open Lib

/-- The declared lengths of some chunks, added up. -/
def lengthSum (chunks : List ChunkRef) : Nat := (chunks.map fun c => c.length.toNat).sum

/-- The files have chunk ranges that follow each other from one index of the list to another, and
each is as long as its chunks. -/
inductive Tiling (chunks : List ChunkRef) : Nat → List FileEntry → Nat → Prop
  | nil (start : Nat) : Tiling chunks start [] start
  | cons {start stop : Nat} {entry : FileEntry} {files : List FileEntry} :
    entry.chunkStart.toNat = start → start + entry.chunkCount.toNat ≤ chunks.length →
    entry.size.toNat = lengthSum ((chunks.drop start).take entry.chunkCount.toNat) →
    Tiling chunks (start + entry.chunkCount.toNat) files stop →
    Tiling chunks start (entry :: files) stop

/-- What `validate` says, over the integers. -/
structure Manifest.Exact (m : Manifest) : Prop where
  total : lengthSum m.chunks = m.totalSize.toNat
  tiles : Tiling m.chunks 0 m.files m.chunks.length

namespace Tiling

variable {chunks : List ChunkRef} {files : List FileEntry} {start stop : Nat}

theorem le (h : Tiling chunks start files stop) : start ≤ stop := by
  induction h with
  | nil => exact Nat.le_refl _
  | cons _ _ _ _ ih => omega

/-- The files are together as long as the chunks that they tile. -/
theorem sum_sizes (h : Tiling chunks start files stop) :
    (files.map fun e => e.size.toNat).sum =
      lengthSum ((chunks.drop start).take (stop - start)) := by
  induction h with
  | nil start => simp [lengthSum]
  | @cons start stop entry files _ _ hsize hrest ih =>
    have hle := hrest.le
    have hcut : (chunks.drop start).take (stop - start) =
        (chunks.drop start).take entry.chunkCount.toNat ++
          (chunks.drop (start + entry.chunkCount.toNat)).take
            (stop - (start + entry.chunkCount.toNat)) := by
      rw [← List.drop_drop, ← List.take_add]
      congr 1
      omega
    rw [List.map_cons, List.sum_cons, ih, hsize, hcut]
    simp [lengthSum]

end Tiling

/-- Chunks that fit into memory are not too long to be added up. -/
theorem lengthSum_lt {chunks : List ChunkRef} (h : chunks.length < 2 ^ 32) :
    lengthSum chunks < 2 ^ 64 := by
  have hsum : ∀ cs : List ChunkRef, lengthSum cs ≤ cs.length * (2 ^ 32 - 1) := by
    intro cs
    induction cs with
    | nil => exact Nat.zero_le _
    | cons c cs ih =>
      have hc := c.length.toNat_lt
      have hcons : lengthSum (c :: cs) = c.length.toNat + lengthSum cs := rfl
      rw [hcons, List.length_cons, Nat.succ_mul]
      omega
  have hle := hsum chunks
  have hmul : chunks.length * (2 ^ 32 - 1) ≤ (2 ^ 32 - 1) * (2 ^ 32 - 1) :=
    Nat.mul_le_mul_right _ (by omega)
  omega

/-- The loop over the files checks exactly that they tile the list from the cursor on. -/
theorem validateFiles_eq_ok {chunks : List ChunkRef} (hcount : chunks.length < 2 ^ 32)
    {files : List FileEntry} {cursor fileBytes stop bytes : Nat} :
    validateFiles chunks files cursor fileBytes = .ok (stop, bytes) ↔
      Tiling chunks cursor files stop ∧
        bytes = files.foldl (fun acc e => satAdd acc e.size.toNat) fileBytes := by
  induction files generalizing cursor fileBytes with
  | nil =>
    constructor
    · intro h
      cases h
      exact ⟨.nil _, rfl⟩
    · rintro ⟨ht, rfl⟩
      cases ht
      rfl
  | cons entry files ih =>
    have hown : ∀ start, chunkBytes ((chunks.drop start).take entry.chunkCount.toNat) =
        lengthSum ((chunks.drop start).take entry.chunkCount.toNat) := by
      intro start
      refine chunkBytes_eq (lengthSum_lt ?_)
      rw [List.length_take, List.length_drop]
      omega
    rw [validateFiles, List.foldl_cons]
    constructor
    · intro h
      split at h
      · cases h
      · next hstart =>
        have hstart := not_not.mp hstart
        split at h
        · cases h
        · split at h
          · cases h
          · dsimp only at h
            split at h
            · cases h
            · next hbound =>
              split at h
              · cases h
              · next hsize =>
                rw [hstart] at h hbound hsize
                obtain ⟨ht, hbytes⟩ := ih.mp h
                refine ⟨.cons hstart (Nat.le_of_not_lt hbound) ?_ ht, hbytes⟩
                rw [← hown]
                exact (not_not.mp hsize).symm
    · rintro ⟨ht, hbytes⟩
      cases ht with
      | cons hstart hbound hsize hrest =>
        have hempty : ¬(entry.chunkCount = 0 ∧ entry.size ≠ 0) := by
          rintro ⟨h0, hne⟩
          rw [h0] at hsize
          exact hne (UInt64.toNat_inj.mp (hsize.trans (by simp [lengthSum])))
        rw [if_neg (not_not.mpr hstart), if_neg hempty]
        dsimp only
        rw [hstart, if_neg (by omega), if_neg (by omega), hown, if_neg (not_not.mpr hsize.symm)]
        exact ih.mpr ⟨hrest, hbytes⟩

/-- A manifest that validates is as it would have to be over the integers, and the other way
round. -/
theorem Manifest.validate_iff {m : Manifest} (hcount : m.chunks.length < 2 ^ 32) :
    m.validate = .ok () ↔ m.Exact := by
  have hlt := lengthSum_lt hcount
  have hbytes : chunkBytes m.chunks = lengthSum m.chunks := chunkBytes_eq hlt
  have hsizes : Tiling m.chunks 0 m.files m.chunks.length →
      m.files.foldl (fun acc e => satAdd acc e.size.toNat) 0 = lengthSum m.chunks := by
    intro ht
    have hsum := ht.sum_sizes
    rw [List.drop_zero, Nat.sub_zero, List.take_length] at hsum
    rw [foldl_satAdd (fun e : FileEntry => e.size.toNat) m.files (by decide), hsum]
    omega
  constructor
  · intro h
    obtain ⟨⟨stop, bytes⟩, hfiles, hstop⟩ := validateFiles_of_validate h
    obtain ⟨ht, -⟩ := (validateFiles_eq_ok hcount).mp hfiles
    obtain rfl : stop = m.chunks.length := hstop
    refine ⟨?_, ht⟩
    unfold Manifest.validate at h
    split at h
    · cases h
    · next htotal => rw [← hbytes, not_not.mp htotal]
  · rintro ⟨htotal, ht⟩
    have hfiles : validateFiles m.chunks m.files 0 0 = .ok (m.chunks.length,
        m.files.foldl (fun acc e => satAdd acc e.size.toNat) 0) :=
      (validateFiles_eq_ok hcount).mpr ⟨ht, rfl⟩
    rw [Manifest.validate, hbytes, htotal, if_neg (not_not.mpr rfl), hfiles]
    dsimp only
    rw [hsizes ht, htotal, if_neg (not_not.mpr rfl), if_neg (not_not.mpr rfl)]

/-! ## What is safe after it -/

/-- The loops that trust the file table stay within the stream and within the chunk list. -/
structure Manifest.InRange (m : Manifest) : Prop where
  /-- The offset of a file and its size add up to no more than the stream. -/
  slices : ∀ before entry after, m.files = before ++ entry :: after →
    (before.map fun e => e.size.toNat).sum + entry.size.toNat ≤ m.totalSize.toNat
  /-- The end of a chunk range is a `usize`. -/
  ends : ∀ entry ∈ m.files, entry.Fits
  /-- Every index of a chunk range is one of the list. -/
  indices : ∀ entry ∈ m.files, ∀ ci, entry.chunkStart.toNat ≤ ci →
    ci < entry.chunkStart.toNat + entry.chunkCount.toNat → ci < m.chunks.length

theorem Manifest.Exact.inRange {m : Manifest} (hm : m.Exact) (hvalid : m.validate = .ok ()) :
    m.InRange where
  slices before entry after hfiles := by
    have hsum := hm.tiles.sum_sizes
    rw [List.drop_zero, Nat.sub_zero, List.take_length, hm.total, hfiles, List.map_append,
      List.sum_append, List.map_cons, List.sum_cons] at hsum
    omega
  ends := (Manifest.tiled_of_validate hvalid).fits
  indices entry he ci _ hlt := hlt.trans_le ((Manifest.tiled_of_validate hvalid).bound entry he)

/-- The loop of `split_stream` goes through when the sizes fit into the stream. -/
theorem splitFiles_total {data : Bytes} (hdata : data.length < 2 ^ 64) {entries : List FileEntry}
    {offset : Nat} (out : List (Text × Bytes))
    (h : offset + (entries.map fun e => e.size.toNat).sum ≤ data.length) :
    ∃ files, splitFiles data entries offset out = .ok files := by
  induction entries generalizing offset out with
  | nil => exact ⟨out, rfl⟩
  | cons entry entries ih =>
    rw [List.map_cons, List.sum_cons] at h
    rw [splitFiles, if_neg (by omega)]
    exact ih _ (by omega)

section

variable [Blake3] {σ : Type} {fetch : σ → Hash → Option Bytes × σ} {m : Manifest}

/-- Why the inner loop of `reconstruct_files` may fail within the chunk list. -/
theorem Manifest.collectRange_error {count ci : Nat} {out : Bytes} {s : σ} {e : ManifestError}
    (hle : ci + count ≤ m.chunks.length) (h : (m.collectRange fetch count ci out s).1 = .error e) :
    ∃ index, e = .badChunk index := by
  induction count generalizing ci out s with
  | zero => cases h
  | succ count ih =>
    have hc : m.chunks[ci]? = some m.chunks[ci] := List.getElem?_eq_getElem (by omega)
    rw [Manifest.collectRange, hc] at h
    dsimp only at h
    split at h
    · cases h
      exact ⟨ci, rfl⟩
    · split at h
      · exact ih (by omega) h
      · cases h
        exact ⟨ci, rfl⟩

/-- Why the outer loop may fail where every range lies within the chunk list. -/
theorem Manifest.collectFiles_error {entries : List FileEntry} {out : List (Text × Bytes)} {s : σ}
    {e : ManifestError} (hle : ∀ entry ∈ entries,
      entry.chunkStart.toNat + entry.chunkCount.toNat ≤ m.chunks.length)
    (h : (m.collectFiles fetch entries out s).1 = .error e) :
    (∃ index, e = .badChunk index) ∨ ∃ got expected, e = .sizeMismatch got expected := by
  induction entries generalizing out s with
  | nil => cases h
  | cons entry entries ih =>
    rw [Manifest.collectFiles] at h
    split at h
    · next hr =>
      cases h
      exact .inl (Manifest.collectRange_error (hle entry List.mem_cons_self) (by rw [hr]))
    · split at h
      · cases h
        exact .inr ⟨_, _, rfl⟩
      · exact ih (fun e he => hle e (List.mem_cons_of_mem _ he)) h

/-- The fast check is the slow one: the inclusion proof of a chunk is accepted exactly if the bytes
have the listed hash and the listed hashes make up the root, at every index and whatever the root
that is declared. -/
theorem Manifest.verifyChunk_iff (m : Manifest) (index : Nat) (bytes : Bytes) :
    m.verifyChunk index bytes = true ↔
      m.rootIsConsistent = true ∧ m.chunkHashOk index bytes = true := by
  rw [Manifest.verifyChunk_eq, Bool.and_eq_true]
  exact and_comm

/-- `validate` is exact, and after it `split_stream` cuts every stream of the declared length and
`reconstruct_files` never runs out of the chunk list. -/
theorem Manifest.validate_exact (m : Manifest) (hcount : m.chunks.length < 2 ^ 32) :
    (m.validate = .ok () ↔ m.Exact) ∧
    (m.validate = .ok () → m.InRange ∧
      (∀ data : Bytes, data.length = m.totalSize.toNat →
        ∃ files, m.splitStream data = .ok files) ∧
      ∀ (σ : Type) (fetch : σ → Hash → Option Bytes × σ) (s : σ),
        (m.reconstructFiles fetch s).1 ≠ .error (.invalid "file chunk range out of bounds")) := by
  have hiff := Manifest.validate_iff hcount
  refine ⟨hiff, fun hvalid => ?_⟩
  have hexact := hiff.mp hvalid
  refine ⟨hexact.inRange hvalid, fun data hdata => ?_, fun σ fetch s h => ?_⟩
  · have hsum := hexact.tiles.sum_sizes
    rw [List.drop_zero, Nat.sub_zero, List.take_length, hexact.total] at hsum
    rw [Manifest.splitStream, if_neg (not_not.mpr hdata), hvalid]
    exact splitFiles_total (hdata ▸ m.totalSize.toNat_lt) [] (by omega)
  · rw [Manifest.reconstructFiles, hvalid] at h
    rcases Manifest.collectFiles_error (Manifest.tiled_of_validate hvalid).bound h with
      ⟨_, he⟩ | ⟨_, _, he⟩
    · cases he
    · cases he

end

/-- Two files, one of them empty, over three chunks. -/
theorem validate_exact_two :
    let _ := blake3OfNothing
    let m : Manifest := ⟨rootOfNothing, 6, [⟨rootOfNothing, 0, 1⟩, ⟨rootOfNothing, 1, 2⟩,
      ⟨rootOfNothing, 3, 3⟩], [⟨pathA, 0, 0, 0⟩, ⟨pathB, 6, 0, 3⟩], none⟩
    m.validate = .ok () ∧ m.Exact ∧ m.InRange := by
  let _ := blake3OfNothing
  let m : Manifest := ⟨rootOfNothing, 6, [⟨rootOfNothing, 0, 1⟩, ⟨rootOfNothing, 1, 2⟩,
    ⟨rootOfNothing, 3, 3⟩], [⟨pathA, 0, 0, 0⟩, ⟨pathB, 6, 0, 3⟩], none⟩
  have hvalid : m.validate = .ok () := by decide
  obtain ⟨hiff, hsafe⟩ := Manifest.validate_exact m (by decide)
  exact ⟨hvalid, hiff.mp hvalid, (hsafe hvalid).1⟩

end Np2ptp
