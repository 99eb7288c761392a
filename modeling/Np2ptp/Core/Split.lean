import Np2ptp.Core.Reconstruct

/-!
# Files by chunk ranges, and files by sizes

`reconstruct_files` cuts the fetched chunks at the ranges of the file table and compares each file
with its size. `reconstruct` compares only the whole with the total, and `split_stream` cuts it at
the sizes. The lengths that the manifest declares for its chunks are all that relates ranges and
sizes, and nothing compares them with the chunks that arrive: the two ways agree if and only if,
for chunks of the listed hashes, the whole has the declared length exactly if each file has
(`rebuild_agrees_iff`).
-/

namespace Np2ptp

open Lib

/-- The declared sizes of some files, added up. -/
def sizeSum (entries : List FileEntry) : Nat := (entries.map fun e => e.size.toNat).sum

/-- The loop of `split_stream` goes through exactly if the sizes fit into the stream, and cuts it
at them. -/
theorem splitFiles_eq_ok {data : Bytes} (hdata : data.length < 2 ^ 64) {entries : List FileEntry}
    {offset : Nat} {out files : List (Text × Bytes)} (hoffset : offset ≤ data.length) :
    splitFiles data entries offset out = .ok files ↔ offset + sizeSum entries ≤ data.length ∧
      files = out ++ (entries.map FileEntry.path).zip
        (slices (entries.map fun e => e.size.toNat) (data.drop offset)) := by
  induction entries generalizing offset out with
  | nil =>
    constructor
    · intro h
      cases h
      exact ⟨hoffset, by simp⟩
    · rintro ⟨-, rfl⟩
      simp [splitFiles]
  | cons entry entries ih =>
    have hsum : sizeSum (entry :: entries) = entry.size.toNat + sizeSum entries := by
      rw [sizeSum, List.map_cons, List.sum_cons]
      rfl
    rw [splitFiles]
    by_cases hstop : offset + entry.size.toNat ≤ data.length
    · rw [if_neg (by omega), ih hstop, hsum, ← Nat.add_assoc]
      refine and_congr_right fun _ => ?_
      rw [List.append_assoc, List.map_cons, List.map_cons, slices, List.drop_drop]
      rfl
    · rw [if_pos (by omega)]
      constructor
      · intro h
        cases h
      · rintro ⟨hle, -⟩
        omega

/-- When `split_stream` succeeds. -/
theorem Manifest.splitStream_eq_ok {m : Manifest} {data : Bytes} {files : List (Text × Bytes)} :
    m.splitStream data = .ok files ↔ m.validate = .ok () ∧ data.length = m.totalSize.toNat ∧
      sizeSum m.files ≤ data.length ∧ files = (m.files.map FileEntry.path).zip
        (slices (m.files.map fun e => e.size.toNat) data) := by
  unfold Manifest.splitStream
  by_cases hlen : data.length = m.totalSize.toNat
  · have hsplit : splitFiles data m.files 0 [] = .ok files ↔ _ :=
      splitFiles_eq_ok (hlen ▸ m.totalSize.toNat_lt) (Nat.zero_le _)
    rw [Nat.zero_add, List.nil_append, List.drop_zero] at hsplit
    rw [if_neg (not_not.mpr hlen)]
    rcases m.validate with e | ⟨⟩
    · simp
    · simp [hsplit, hlen]
  · rw [if_pos hlen]
    simp [hlen]

/-- What the loop of `validate` has added up at its end. -/
theorem validateFiles_bytes {chunks : List ChunkRef} {entries : List FileEntry}
    {cursor fileBytes : Nat} {r : Nat × Nat}
    (h : validateFiles chunks entries cursor fileBytes = .ok r) :
    r.2 = entries.foldl (fun acc e => satAdd acc e.size.toNat) fileBytes := by
  induction entries generalizing cursor fileBytes with
  | nil =>
    cases h
    rfl
  | cons entry entries ih =>
    obtain ⟨-, -, -, -, hrest⟩ := validateFiles_cons_ok h
    rw [ih hrest, List.foldl_cons]

/-- The declared sizes of a manifest that validates add up to its total, as far as a `u64` goes. -/
theorem Manifest.totalSize_eq {m : Manifest} (hv : m.validate = .ok ()) :
    m.totalSize.toNat = min (sizeSum m.files) (2 ^ 64 - 1) := by
  have hsum : (m.files.foldl (fun acc e => satAdd acc e.size.toNat) 0) =
      min (0 + sizeSum m.files) (2 ^ 64 - 1) := foldl_satAdd _ _ (by decide)
  rw [Nat.zero_add] at hsum
  unfold Manifest.validate at hv
  split at hv
  · cases hv
  · split at hv
    · cases hv
    · next cursor fileBytes hf =>
      split at hv
      · cases hv
      · split at hv
        · cases hv
        · next htotal =>
          rw [← hsum, ← not_not.mp htotal]
          exact validateFiles_bytes hf

/-- Pieces that fill each file as declared are cut by the sizes as they are by the counts. -/
theorem FitsSizes.cutBy_eq {entries : List FileEntry} {pieces : List Bytes}
    (hcount : pieces.length = (entries.map fun e => e.chunkCount.toNat).sum)
    (h : FitsSizes entries pieces) : cutBy entries pieces =
      (entries.map FileEntry.path).zip
        (slices (entries.map fun e => e.size.toNat) pieces.flatten) := by
  have hlengths : entries.map (fun e => e.size.toNat) =
      ((cutBy entries pieces).map Prod.snd).map List.length := by
    rw [← h, List.map_map]
    rfl
  rw [hlengths, ← treeBytes_cutBy hcount, treeBytes, slices_flatten, ← cutBy_paths entries pieces,
    List.zip_map', List.map_id']

section

variable [Blake3] {σ : Type} {fetch : σ → Hash → Option Bytes × σ} {m : Manifest}

theorem Manifest.Supplied.length_eq {s : σ} {pieces : List Bytes} (h : m.Supplied fetch s pieces) :
    pieces.length = (m.files.map fun e => e.chunkCount.toNat).sum := by
  rw [h.fetched.length_eq, Manifest.hashes, List.length_map]
  exact (Manifest.tiled_of_validate h.valid).total.symm

/-- Of fetched chunks that are as listed, the whole has the declared length exactly if the chunks of
every file have the declared size. -/
def Manifest.SizesAgree (m : Manifest) (fetch : σ → Hash → Option Bytes × σ) (s : σ) : Prop :=
  ∀ pieces, m.Supplied fetch s pieces →
    (pieces.flatten.length = m.totalSize.toNat ∧ sizeSum m.files = m.totalSize.toNat ↔
      FitsSizes m.files pieces)

/-- Rebuilding the files and splitting the whole agree if and only if the declared sizes do. -/
theorem rebuild_agrees_iff (m : Manifest) (fetch : σ → Hash → Option Bytes × σ) (s : σ) :
    (∀ files, (m.reconstructFiles fetch s).1 = .ok files ↔
        ∃ data, (m.reconstruct fetch s).1 = .ok data ∧ m.splitStream data = .ok files) ↔
      m.SizesAgree fetch s := by
  constructor
  · intro h pieces hpieces
    constructor
    · rintro ⟨hlen, hsum⟩
      have hwhole : (m.reconstruct fetch s).1 = .ok pieces.flatten := by
        rw [Manifest.reconstruct_eq_ok.mpr ⟨rfl, pieces, hpieces, rfl, hlen⟩]
      have hsplit := Manifest.splitStream_eq_ok.mpr ⟨hpieces.valid, hlen, by omega, rfl⟩
      obtain ⟨-, qs, hqs, hfit, -⟩ := Manifest.reconstructFiles_eq_ok.mp
        (Prod.ext ((h _).mpr ⟨_, hwhole, hsplit⟩) rfl : m.reconstructFiles fetch s = (.ok _, _))
      rwa [hpieces.fetched.unique hqs.fetched]
    · intro hfit
      have hfiles : (m.reconstructFiles fetch s).1 = .ok (cutBy m.files pieces) := by
        rw [Manifest.reconstructFiles_eq_ok.mpr ⟨rfl, pieces, hpieces, hfit, rfl⟩]
      obtain ⟨data, hwhole, hsplit⟩ := (h _).mp hfiles
      obtain ⟨-, ps, hps, rfl, hlen⟩ := Manifest.reconstruct_eq_ok.mp
        (Prod.ext hwhole rfl : m.reconstruct fetch s = (.ok data, _))
      obtain ⟨-, -, hle, -⟩ := Manifest.splitStream_eq_ok.mp hsplit
      rw [hpieces.fetched.unique hps.fetched]
      have htotal := Manifest.totalSize_eq hps.valid
      have hlt := m.totalSize.toNat_lt
      exact ⟨hlen, by omega⟩
  · intro h files
    constructor
    · intro hfiles
      obtain ⟨-, pieces, hpieces, hfit, rfl⟩ := Manifest.reconstructFiles_eq_ok.mp
        (Prod.ext hfiles rfl : m.reconstructFiles fetch s = (.ok files, _))
      obtain ⟨hlen, hsum⟩ := (h pieces hpieces).mpr hfit
      refine ⟨pieces.flatten, ?_, Manifest.splitStream_eq_ok.mpr
        ⟨hpieces.valid, hlen, by omega, hfit.cutBy_eq hpieces.length_eq⟩⟩
      rw [Manifest.reconstruct_eq_ok.mpr ⟨rfl, pieces, hpieces, rfl, hlen⟩]
    · rintro ⟨data, hwhole, hsplit⟩
      obtain ⟨-, pieces, hpieces, rfl, hlen⟩ := Manifest.reconstruct_eq_ok.mp
        (Prod.ext hwhole rfl : m.reconstruct fetch s = (.ok data, _))
      obtain ⟨-, -, hle, rfl⟩ := Manifest.splitStream_eq_ok.mp hsplit
      have htotal := Manifest.totalSize_eq hpieces.valid
      have hlt := m.totalSize.toNat_lt
      have hfit := (h pieces hpieces).mp ⟨hlen, by omega⟩
      rw [← hfit.cutBy_eq hpieces.length_eq,
        Manifest.reconstructFiles_eq_ok.mpr ⟨rfl, pieces, hpieces, hfit, rfl⟩]

end

/-- Two chunks `x` in files of their own, declared to be empty and to be two bytes long: the files
are refused, and the whole is split as declared. -/
theorem rebuild_disagrees :
    let _ := blake3OfXX
    let m : Manifest := ⟨rootOfXAndX, 2, [⟨digestOfX, 0, 0⟩, ⟨digestOfX, 0, 2⟩],
      [⟨pathA, 0, 0, 1⟩, ⟨pathB, 2, 1, 1⟩], none⟩
    let fetch := fun (_ : Unit) (_ : Hash) => ((some [120], ()) : Option Bytes × Unit)
    let files := [(pathA, []), (pathB, [120, 120])]
    (m.reconstructFiles fetch ()).1 = .error (.sizeMismatch 1 0) ∧
      ¬((m.reconstructFiles fetch ()).1 = .ok files ↔
        ∃ data, (m.reconstruct fetch ()).1 = .ok data ∧ m.splitStream data = .ok files) := by
  let _ := blake3OfXX
  let m : Manifest := ⟨rootOfXAndX, 2, [⟨digestOfX, 0, 0⟩, ⟨digestOfX, 0, 2⟩],
    [⟨pathA, 0, 0, 1⟩, ⟨pathB, 2, 1, 1⟩], none⟩
  let fetch := fun (_ : Unit) (_ : Hash) => ((some [120], ()) : Option Bytes × Unit)
  have hfiles : (m.reconstructFiles fetch ()).1 = .error (.sizeMismatch 1 0) := by decide +kernel
  have hwhole : (m.reconstruct fetch ()).1 = .ok [120, 120] := by decide +kernel
  have hsplit : m.splitStream [120, 120] = .ok [(pathA, []), (pathB, [120, 120])] := by
    decide +kernel
  refine ⟨hfiles, fun hiff => ?_⟩
  have hok := hiff.mpr ⟨_, hwhole, hsplit⟩
  rw [hfiles] at hok
  cases hok

end Np2ptp
