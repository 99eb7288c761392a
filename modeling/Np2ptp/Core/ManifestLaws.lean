import Np2ptp.Core.Manifest

/-!
# What the checks of a manifest mean

The structure that `validate` checks (`Manifest.Tiled`), and the two chunk checks brought together:
the full one is the cheap one plus a root that fits the chunk list (`Manifest.verifyChunk_eq`).
-/

namespace Np2ptp

open Lib

/-- The file's chunk range ends below the end of a `usize`. -/
def FileEntry.Fits (entry : FileEntry) : Prop :=
  entry.chunkStart.toNat + entry.chunkCount.toNat < 2 ^ 64

/-- An entry that validates begins at the cursor and stays within the chunk list; no range
overflows, and a file without chunks is empty. The rest validates after it. -/
theorem validateFiles_cons_ok {chunks : List ChunkRef} {entry : FileEntry} {files : List FileEntry}
    {cursor fileBytes : Nat} {r : Nat × Nat}
    (h : validateFiles chunks (entry :: files) cursor fileBytes = .ok r) :
    entry.chunkStart.toNat = cursor ∧ entry.Fits ∧
      cursor + entry.chunkCount.toNat ≤ chunks.length ∧
      (entry.chunkCount.toNat = 0 → entry.size.toNat = 0) ∧
      validateFiles chunks files (cursor + entry.chunkCount.toNat)
        (satAdd fileBytes entry.size.toNat) = .ok r := by
  rw [validateFiles] at h
  split at h
  · cases h
  · next hstart =>
    have hstart := not_not.mp hstart
    split at h
    · cases h
    · next hempty =>
      split at h
      · cases h
      · next hfits =>
        dsimp only at h
        split at h
        · cases h
        · next hbound =>
          split at h
          · cases h
          · rw [hstart] at h hbound
            refine ⟨hstart, Nat.lt_of_not_le hfits, Nat.le_of_not_lt hbound, fun h0 => ?_, h⟩
            by_contra hne
            exact hempty ⟨UInt64.toNat_inj.mp h0, fun e0 => hne (by rw [e0]; rfl)⟩

/-- A file table that validates ends where it started plus all its counts, within the chunk list;
no range overflows, and a file without chunks is empty. -/
theorem validateFiles_ok {chunks : List ChunkRef} : ∀ {files : List FileEntry}
    {cursor fileBytes cursor' fileBytes' : Nat},
    validateFiles chunks files cursor fileBytes = .ok (cursor', fileBytes') →
    cursor' = cursor + (files.map fun e => e.chunkCount.toNat).sum ∧
      ∀ entry ∈ files, entry.Fits ∧
        entry.chunkStart.toNat + entry.chunkCount.toNat ≤ chunks.length ∧
        (entry.chunkCount.toNat = 0 → entry.size.toNat = 0)
  | [], _, _, _, _, h => by
    cases h
    simp
  | entry :: files, cursor, fileBytes, cursor', fileBytes', h => by
    obtain ⟨hstart, hfits, hbound, hempty, hrest⟩ := validateFiles_cons_ok h
    obtain ⟨hc, hall⟩ := validateFiles_ok hrest
    refine ⟨?_, fun e he => ?_⟩
    · simp only [List.map_cons, List.sum_cons]
      omega
    · rcases List.mem_cons.mp he with rfl | he
      · exact ⟨hfits, by rwa [hstart], hempty⟩
      · exact hall e he

/-- What a manifest that validates promises about its file table. -/
structure Manifest.Tiled (m : Manifest) : Prop where
  fits : ∀ entry ∈ m.files, entry.Fits
  bound : ∀ entry ∈ m.files, entry.chunkStart.toNat + entry.chunkCount.toNat ≤ m.chunks.length
  empty : ∀ entry ∈ m.files, entry.chunkCount.toNat = 0 → entry.size.toNat = 0
  total : (m.files.map fun e => e.chunkCount.toNat).sum = m.chunks.length

/-- The loop over the file table of a manifest that validates ends at the end of the chunk list. -/
theorem validateFiles_of_validate {m : Manifest} (h : m.validate = .ok ()) :
    ∃ r, validateFiles m.chunks m.files 0 0 = .ok r ∧ r.1 = m.chunks.length := by
  unfold Manifest.validate at h
  split at h
  · cases h
  · split at h
    · cases h
    · next cursor fileBytes hf =>
      split at h
      · cases h
      · next hcursor => exact ⟨_, hf, not_not.mp hcursor⟩

theorem Manifest.tiled_of_validate {m : Manifest} (h : m.validate = .ok ()) : m.Tiled := by
  obtain ⟨⟨cursor, fileBytes⟩, hf, hcursor⟩ := validateFiles_of_validate h
  obtain ⟨hc, hall⟩ := validateFiles_ok hf
  have hcursor : cursor = m.chunks.length := hcursor
  exact ⟨fun e he => (hall e he).1, fun e he => (hall e he).2.1, fun e he => (hall e he).2.2,
    by omega⟩

/-- A manifest that lists chunks and validates has a file with a chunk. -/
theorem Manifest.Tiled.exists_chunk {m : Manifest} (h : m.Tiled) (hne : m.chunks ≠ []) :
    ∃ entry ∈ m.files, entry.chunkCount.toNat ≠ 0 := by
  by_contra hall
  push Not at hall
  have h0 : (m.files.map fun e => e.chunkCount.toNat).sum = 0 := by
    rw [List.sum_eq_zero_iff_forall_eq_nat]
    intro n hn
    obtain ⟨e, he, rfl⟩ := List.mem_map.mp hn
    exact hall e he
  exact hne (List.length_eq_zero_iff.mp (h.total.symm.trans h0))

section

variable [Blake3]

/-- The full check is the cheap one and that the listed chunks make up the root. -/
theorem Manifest.verifyChunk_eq (m : Manifest) (ci : Nat) (bytes : Bytes) :
    m.verifyChunk ci bytes = (m.chunkHashOk ci bytes && m.rootIsConsistent) := by
  unfold Manifest.verifyChunk Manifest.chunkHashOk
  cases hc : m.chunks[ci]? with
  | none => rfl
  | some cref =>
    have hi : m.hashes[ci]? = some cref.hash := by
      rw [Manifest.hashes, List.getElem?_map, hc]
      rfl
    obtain ⟨p, hp, hv⟩ := merkleVerify_merkleProof hi m.root
    have hroot : m.rootIsConsistent = decide (merkleRoot m.hashes = m.root) :=
      Bool.beq_eq_decide_eq _ _
    simp only [Manifest.proof, hp, hv, hroot]
    by_cases hh : Hash.of bytes = cref.hash
    · simp [hh]
    · simp [hh]

end

end Np2ptp
