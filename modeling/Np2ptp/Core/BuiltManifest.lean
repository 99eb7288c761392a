import Np2ptp.Core.Manifest

/-!
# Built manifests

What `from_files` makes of a list of files: one reference for each piece, offset by what came
before (`Manifest.fromFiles_eq`). The hashes are those of the pieces (`Manifest.hashes_fromFiles`);
the file table tiles the list, so the manifest validates (`Manifest.validate_fromFiles`); and
splitting the joined contents by it gives the files back (`Manifest.splitStream_fromFiles`).
-/

namespace Np2ptp

open Lib

theorem toNat_u64 {n : Nat} (h : n < 2 ^ 64) : (UInt64.ofNat n).toNat = n :=
  UInt64.toNat_ofNat_of_lt' h

section

variable [Blake3] [FastCDC]

/-- The pieces that the files of a tree are cut into, in order. -/
def treePieces (files : List (Text × Bytes)) : List Bytes :=
  files.flatMap fun f => FastCDC.slice.pieces f.2

omit [Blake3] in
theorem treePieces_cons (f : Text × Bytes) (files : List (Text × Bytes)) :
    treePieces (f :: files) = FastCDC.slice.pieces f.2 ++ treePieces files := rfl

omit [Blake3] in
theorem flatten_treePieces (files : List (Text × Bytes)) :
    (treePieces files).flatten = (files.map Prod.snd).flatten := by
  induction files with
  | nil => rfl
  | cons f files ih =>
    have hcut := FastCDC.slice.flatten_pieces f.2
    rw [treePieces_cons, List.flatten_append, hcut, ih, List.map_cons, List.flatten_cons]

omit [FastCDC] in
theorem map_hash_spansFrom : ∀ (offset : Nat) (ps : List Bytes),
    (spansFrom offset ps).map ChunkSpan.hash = ps.map Hash.of
  | _, [] => rfl
  | offset, p :: ps => by
    rw [spansFrom, List.map_cons, List.map_cons, map_hash_spansFrom (offset + p.length) ps]

omit [Blake3] in
/-- Nothing is cut into no pieces. -/
theorem pieces_nil : FastCDC.slice.pieces [] = [] := by
  rcases hp : FastCDC.slice.pieces [] with _ | ⟨p, ps⟩
  · rfl
  · have hflat := FastCDC.slice.flatten_pieces []
    have hpos := FastCDC.slice.length_pos [] p (by rw [hp]; exact List.mem_cons_self)
    rw [hp, List.flatten_cons, List.append_eq_nil_iff] at hflat
    rw [hflat.1] at hpos
    exact absurd hpos (Nat.lt_irrefl 0)

/-- The spans of some content carry the hashes of its pieces. -/
theorem map_hash_chunk (data : Bytes) :
    (chunk data).map ChunkSpan.hash = (FastCDC.slice.pieces data).map Hash.of := by
  rw [chunk]
  split
  · next h => rw [h, pieces_nil]; rfl
  · exact map_hash_spansFrom 0 _

theorem hashes_foldl_addFile (files : List (Text × Bytes)) (b : Building) :
    (files.foldl Building.addFile b).chunks.map ChunkRef.hash =
      b.chunks.map ChunkRef.hash ++ (treePieces files).map Hash.of := by
  induction files generalizing b with
  | nil => simp [treePieces]
  | cons f files ih =>
    have hspans := map_hash_chunk f.2
    rw [List.foldl_cons, ih, treePieces_cons, List.map_append, ← hspans]
    simp [Building.addFile, Function.comp_def]

/-- A built manifest lists the hashes of the pieces of its files, in order. -/
theorem Manifest.hashes_fromFiles (files : List (Text × Bytes)) (name : Option Text) :
    (Manifest.fromFiles files name).hashes = (treePieces files).map Hash.of :=
  hashes_foldl_addFile files ⟨[], [], 0⟩

/-- Its root is the one that they make up. -/
theorem Manifest.root_fromFiles (files : List (Text × Bytes)) (name : Option Text) :
    (Manifest.fromFiles files name).root = merkleRoot (Manifest.fromFiles files name).hashes := rfl

/-! ## The shape of a built manifest -/

/-- The spans of some content are those of its pieces, also where there is none. -/
theorem chunk_eq (data : Bytes) : chunk data = spansFrom 0 (FastCDC.slice.pieces data) := by
  rw [chunk]
  split
  · next h => rw [h, pieces_nil]; rfl
  · rfl

/-- The references of files that start at `offset`. -/
def refsFrom : Nat → List (Text × Bytes) → List ChunkRef
  | _, [] => []
  | offset, f :: files =>
    (chunk f.2).map (fun s => ⟨s.hash, UInt64.ofNat offset + s.offset, s.length⟩) ++
      refsFrom (offset + f.2.length) files

/-- The file table of files whose first chunk has index `start`. -/
def entriesFrom : Nat → List (Text × Bytes) → List FileEntry
  | _, [] => []
  | start, f :: files =>
    ⟨f.1, UInt64.ofNat f.2.length, UInt64.ofNat start, UInt64.ofNat (chunk f.2).length⟩ ::
      entriesFrom (start + (chunk f.2).length) files

/-- The bytes of the files of a tree, one file after the other. -/
def treeBytes (files : List (Text × Bytes)) : Bytes := (files.map Prod.snd).flatten

omit [Blake3] [FastCDC] in
theorem treeBytes_cons (f : Text × Bytes) (files : List (Text × Bytes)) :
    treeBytes (f :: files) = f.2 ++ treeBytes files := rfl

theorem foldl_addFile (files : List (Text × Bytes)) (b : Building) :
    files.foldl Building.addFile b =
      ⟨b.chunks ++ refsFrom b.globalOffset files, b.files ++ entriesFrom b.chunks.length files,
        b.globalOffset + (treeBytes files).length⟩ := by
  induction files generalizing b with
  | nil => simp [refsFrom, entriesFrom, treeBytes]
  | cons f files ih =>
    rw [List.foldl_cons, ih, treeBytes_cons, refsFrom, entriesFrom]
    simp [Building.addFile, Nat.add_assoc]

/-- The references and the file table of a built manifest. -/
theorem Manifest.fromFiles_eq (files : List (Text × Bytes)) (name : Option Text) :
    Manifest.fromFiles files name =
      { root := merkleRoot ((refsFrom 0 files).map ChunkRef.hash)
        totalSize := UInt64.ofNat (treeBytes files).length
        chunks := refsFrom 0 files
        files := entriesFrom 0 files
        name := name } := by
  rw [Manifest.fromFiles, foldl_addFile]
  simp

omit [FastCDC] in
/-- Pieces of at most the maximum length have exact lengths. -/
theorem map_length_spansFrom {ps : List Bytes} (h : ∀ p ∈ ps, p.length ≤ MAX_CHUNK) (offset : Nat) :
    (spansFrom offset ps).map (fun s => s.length.toNat) = ps.map List.length := by
  induction ps generalizing offset with
  | nil => rfl
  | cons p ps ih =>
    have hp : p.length < 2 ^ 32 := (h p List.mem_cons_self).trans_lt (by decide)
    rw [spansFrom, List.map_cons, List.map_cons, ih fun q hq => h q (List.mem_cons_of_mem _ hq)]
    exact congrArg (· :: _) (UInt32.toNat_ofNat_of_lt' hp)

theorem map_length_chunk (data : Bytes) :
    (chunk data).map (fun s => s.length.toNat) =
      (FastCDC.slice.pieces data).map List.length := by
  rw [chunk_eq]
  exact map_length_spansFrom (FastCDC.slice.length_le data) 0

/-- The references of one file are as long as its pieces. -/
theorem map_length_refsFrom (offset : Nat) (files : List (Text × Bytes)) :
    (refsFrom offset files).map (fun c => c.length.toNat) =
      (treePieces files).map List.length := by
  induction files generalizing offset with
  | nil => rfl
  | cons f files ih =>
    have hchunk := map_length_chunk f.2
    rw [refsFrom, List.map_append, ih, treePieces_cons, List.map_append, ← hchunk, List.map_map]
    rfl

omit [Blake3] in
/-- A file has no more pieces than bytes. -/
theorem length_pieces_le (data : Bytes) : (FastCDC.slice.pieces data).length ≤ data.length := by
  have hsum : ∀ ps : List Bytes, (∀ p ∈ ps, 0 < p.length) → ps.length ≤ ps.flatten.length := by
    intro ps
    induction ps with
    | nil => exact fun _ => Nat.le_refl 0
    | cons p ps ih =>
      intro h
      have hp := h p List.mem_cons_self
      have hps := ih fun q hq => h q (List.mem_cons_of_mem _ hq)
      rw [List.flatten_cons, List.length_append, List.length_cons]
      omega
  have h := hsum _ (FastCDC.slice.length_pos data)
  rwa [FastCDC.slice.flatten_pieces] at h

/-! ## A built manifest passes its checks -/

omit [Blake3] [FastCDC] in
/-- Sizes that are added with saturation make up what they would, or else the largest number. -/
theorem foldl_satAdd {α : Type} (size : α → Nat) (l : List α) {acc : Nat} (hacc : acc < 2 ^ 64) :
    l.foldl (fun acc x => satAdd acc (size x)) acc = min (acc + (l.map size).sum) (2 ^ 64 - 1) := by
  induction l generalizing acc with
  | nil =>
    rw [List.foldl_nil, List.map_nil, List.sum_nil]
    omega
  | cons x l ih =>
    have hsat : satAdd acc (size x) < 2 ^ 64 := by
      unfold satAdd
      omega
    rw [List.foldl_cons, ih hsat, List.map_cons, List.sum_cons]
    unfold satAdd
    omega

omit [Blake3] [FastCDC] in
theorem chunkBytes_eq {chunks : List ChunkRef}
    (h : (chunks.map fun c => c.length.toNat).sum < 2 ^ 64) :
    chunkBytes chunks = (chunks.map fun c => c.length.toNat).sum := by
  have hfold := foldl_satAdd (fun c : ChunkRef => c.length.toNat) chunks (Nat.two_pow_pos 64)
  rw [chunkBytes, hfold]
  omega

/-- The declared lengths of built references sum up to the bytes of the files. -/
theorem sum_refsFrom (offset : Nat) (files : List (Text × Bytes)) :
    ((refsFrom offset files).map fun c => c.length.toNat).sum = (treeBytes files).length := by
  rw [map_length_refsFrom, ← List.length_flatten, flatten_treePieces]
  rfl

theorem sum_chunk (offset : UInt64) (data : Bytes) :
    (((chunk data).map fun s => (⟨s.hash, offset + s.offset, s.length⟩ : ChunkRef)).map
      fun c => c.length.toNat).sum = data.length := by
  have hchunk := map_length_chunk data
  rw [List.map_map]
  show ((chunk data).map fun s => s.length.toNat).sum = _
  rw [hchunk, ← List.length_flatten, FastCDC.slice.flatten_pieces]

theorem length_chunk_le (data : Bytes) : (chunk data).length ≤ data.length := by
  have hlen := congrArg List.length (map_length_chunk data)
  rw [List.length_map, List.length_map] at hlen
  rw [hlen]
  exact length_pieces_le data

/-- The file table tiles the references: the loop over it ends after all of them. -/
theorem validateFiles_entriesFrom : ∀ (files : List (Text × Bytes)) (pre : List ChunkRef)
    (offset fileBytes : Nat), pre.length + (treeBytes files).length < 2 ^ 64 →
    fileBytes + (treeBytes files).length < 2 ^ 64 →
    validateFiles (pre ++ refsFrom offset files) (entriesFrom pre.length files) pre.length
        fileBytes =
      .ok ((pre ++ refsFrom offset files).length, fileBytes + (treeBytes files).length)
  | [], pre, offset, fileBytes, _, _ => by simp [entriesFrom, refsFrom, validateFiles, treeBytes]
  | f :: files, pre, offset, fileBytes, hpre, hbytes => by
    rw [treeBytes_cons, List.length_append] at hpre hbytes
    have hcount := length_chunk_le f.2
    have hstart : (UInt64.ofNat pre.length).toNat = pre.length :=
      toNat_u64 (by omega)
    have hlen : (UInt64.ofNat (chunk f.2).length).toNat = (chunk f.2).length :=
      toNat_u64 (by omega)
    have hsize : (UInt64.ofNat f.2.length).toNat = f.2.length :=
      toNat_u64 (by omega)
    have hempty : ¬(UInt64.ofNat (chunk f.2).length = 0 ∧ UInt64.ofNat f.2.length ≠ 0) := by
      rintro ⟨h0, hne⟩
      have hnil : chunk f.2 = [] := by
        rw [← List.length_eq_zero_iff, ← hlen, h0]
        rfl
      have hsum := sum_chunk 0 f.2
      rw [hnil] at hsum
      exact hne (by rw [← hsum]; rfl)
    let own : List ChunkRef :=
      (chunk f.2).map fun s => ⟨s.hash, UInt64.ofNat offset + s.offset, s.length⟩
    have hown : own.length = (chunk f.2).length := List.length_map _
    have hrefs : pre ++ refsFrom offset (f :: files) =
        (pre ++ own) ++ refsFrom (offset + f.2.length) files := (List.append_assoc _ _ _).symm
    have hcut : ((pre ++ refsFrom offset (f :: files)).drop pre.length).take (chunk f.2).length =
        own := by
      rw [List.drop_left, refsFrom, ← hown]
      exact List.take_left
    have hown_bytes : chunkBytes own = f.2.length := by
      rw [chunkBytes_eq (by rw [sum_chunk]; omega), sum_chunk]
    have hbound : ¬(pre ++ refsFrom offset (f :: files)).length <
        pre.length + (chunk f.2).length := by
      rw [hrefs, List.length_append, List.length_append, hown]
      omega
    have hsat : satAdd fileBytes f.2.length = fileBytes + f.2.length := by
      unfold satAdd
      omega
    have ih := validateFiles_entriesFrom files (pre ++ own) (offset + f.2.length)
      (fileBytes + f.2.length) (by rw [List.length_append, hown]; omega) (by omega)
    rw [entriesFrom, validateFiles]
    dsimp only
    rw [hstart, hlen, hsize, if_neg (by simp), if_neg hempty, if_neg (by omega), if_neg hbound,
      hcut, hown_bytes, if_neg (by simp), hsat, hrefs]
    rw [List.length_append, hown] at ih
    have hlength : (treeBytes (f :: files)).length = f.2.length + (treeBytes files).length := by
      rw [treeBytes_cons, List.length_append]
    rw [ih, hlength, Nat.add_assoc]

/-- A built manifest validates. -/
theorem Manifest.validate_fromFiles {files : List (Text × Bytes)} (name : Option Text)
    (hsize : (treeBytes files).length < 2 ^ 64) :
    (Manifest.fromFiles files name).validate = .ok () := by
  have htotal : (UInt64.ofNat (treeBytes files).length).toNat = (treeBytes files).length :=
    toNat_u64 hsize
  have hsum := sum_refsFrom 0 files
  have hfiles := validateFiles_entriesFrom files [] 0 0 (by simpa using hsize)
    (by simpa using hsize)
  simp only [List.nil_append, List.length_nil, Nat.zero_add] at hfiles
  rw [Manifest.fromFiles_eq, Manifest.validate]
  dsimp only
  rw [chunkBytes_eq (by rw [hsum]; exact hsize), hsum, htotal, hfiles, if_neg (by simp)]
  dsimp only
  rw [if_neg (by simp), if_neg (by simp)]

/-- The loop over the file table cuts the joined contents into the files again. -/
theorem splitFiles_entriesFrom : ∀ (files : List (Text × Bytes)) (pre : Bytes)
    (start : Nat) (out : List (Text × Bytes)), pre.length + (treeBytes files).length < 2 ^ 64 →
    splitFiles (pre ++ treeBytes files) (entriesFrom start files) pre.length out =
      .ok (out ++ files)
  | [], _, _, out, _ => by rw [entriesFrom, splitFiles, List.append_nil]
  | f :: files, pre, start, out, h => by
    rw [treeBytes_cons, List.length_append] at h
    have hsize : (UInt64.ofNat f.2.length).toNat = f.2.length :=
      toNat_u64 (by omega)
    have hdata : pre ++ treeBytes (f :: files) = (pre ++ f.2) ++ treeBytes files :=
      (List.append_assoc _ _ _).symm
    have hcut : ((pre ++ treeBytes (f :: files)).drop pre.length).take f.2.length = f.2 := by
      rw [List.drop_left, treeBytes_cons, List.take_left]
    have ih := splitFiles_entriesFrom files (pre ++ f.2) (start + (chunk f.2).length)
      (out ++ [(f.1, f.2)]) (by rw [List.length_append]; omega)
    rw [List.length_append] at ih
    have hbound : ¬(2 ^ 64 ≤ pre.length + f.2.length ∨
        (pre ++ treeBytes (f :: files)).length < pre.length + f.2.length) := by
      rw [hdata, List.length_append, List.length_append]
      omega
    rw [entriesFrom, splitFiles]
    dsimp only
    rw [hsize, if_neg hbound, hcut, hdata, ih, List.append_assoc]
    rfl

/-- Splitting the joined contents by a built manifest gives the files it was built from. -/
theorem Manifest.splitStream_fromFiles {files : List (Text × Bytes)} (name : Option Text)
    (hsize : (treeBytes files).length < 2 ^ 64) :
    (Manifest.fromFiles files name).splitStream (treeBytes files) = .ok files := by
  have htotal : (UInt64.ofNat (treeBytes files).length).toNat = (treeBytes files).length :=
    toNat_u64 hsize
  have hsplit := splitFiles_entriesFrom files [] 0 [] (by simpa using hsize)
  rw [Manifest.splitStream, Manifest.validate_fromFiles name hsize, Manifest.fromFiles_eq]
  dsimp only
  rw [htotal, if_neg (by simp)]
  exact hsplit

end

end Np2ptp
