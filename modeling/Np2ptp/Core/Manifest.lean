import Np2ptp.Core.Hash

/-!
# Chunks and manifests

`np2ptp-core/src/chunk.rs` and `manifest.rs`. A manifest lists the chunks of some content and how
the files of a tree tile that list; its root is the Merkle root of the chunk hashes and is all that
a link commits to. The lengths, the file table and the total size are not committed to, so every
value of these types can arrive from a peer, and the functions here are the checks made on them.
-/

namespace Np2ptp

open Lib

/-! ## Chunks -/

def MIN_CHUNK : Nat := 16 * 1024
def MAX_CHUNK : Nat := 256 * 1024

/-- Cutting content into consecutive pieces, none of them empty or longer than the maximum. -/
structure Cutter where
  pieces : Bytes → List Bytes
  flatten_pieces : ∀ data, (pieces data).flatten = data
  length_pos : ∀ data, ∀ p ∈ pieces data, 0 < p.length
  length_le : ∀ data, ∀ p ∈ pieces data, p.length ≤ MAX_CHUNK

/-- Pieces of the minimum length, a shorter one last. The first argument bounds their number. -/
def cutFrom : Nat → Bytes → List Bytes
  | 0, _ => []
  | n + 1, data =>
    if data = [] then [] else data.take MIN_CHUNK :: cutFrom n (data.drop MIN_CHUNK)

theorem flatten_cutFrom : ∀ (n : Nat) (data : Bytes), data.length ≤ n →
    (cutFrom n data).flatten = data
  | 0, data, h => by
    rw [List.length_eq_zero_iff.mp (Nat.le_zero.mp h)]
    rfl
  | n + 1, data, h => by
    unfold cutFrom
    split
    · next hnil => rw [hnil]; rfl
    · next hne =>
      have hpos := List.length_pos_iff.mpr hne
      have hmin : 0 < MIN_CHUNK := by decide
      rw [List.flatten_cons, flatten_cutFrom n _ (by rw [List.length_drop]; omega),
        List.take_append_drop]

theorem length_of_mem_cutFrom : ∀ {n : Nat} {data p : Bytes}, p ∈ cutFrom n data →
    0 < p.length ∧ p.length ≤ MIN_CHUNK
  | 0, _, _, h => by cases h
  | n + 1, data, p, h => by
    unfold cutFrom at h
    split at h
    · cases h
    · next hne =>
      rcases List.mem_cons.mp h with rfl | h
      · have hpos := List.length_pos_iff.mpr hne
        have hmin : 0 < MIN_CHUNK := by decide
        rw [List.length_take]
        omega
      · exact length_of_mem_cutFrom h

/-- A cutter that cuts at the minimum length. Content no longer than that is one piece, as it is
for `fastcdc`. -/
def minCutter : Cutter where
  pieces data := cutFrom data.length data
  flatten_pieces data := flatten_cutFrom _ data (Nat.le_refl _)
  length_pos _ _ hp := (length_of_mem_cutFrom hp).1
  length_le _ _ hp := (length_of_mem_cutFrom hp).2.trans (by decide)

/-- The `fastcdc` crate, run with the sizes above: over a slice, and over a reader. -/
class FastCDC where
  slice : Cutter
  stream : Cutter

/-- The crate as it is on content of one chunk. -/
abbrev minFastCDC : FastCDC := ⟨minCutter, minCutter⟩

/-- `ChunkSpan`. -/
structure ChunkSpan where
  offset : UInt64
  length : UInt32
  hash : Hash
  deriving DecidableEq

/-- `ChunkRef`. -/
structure ChunkRef where
  hash : Hash
  offset : UInt64
  length : UInt32
  deriving DecidableEq

/-- `FileEntry`. -/
structure FileEntry where
  path : Text
  size : UInt64
  chunkStart : UInt64
  chunkCount : UInt64
  deriving DecidableEq

/-- `Manifest`. -/
structure Manifest where
  root : Hash
  totalSize : UInt64
  chunks : List ChunkRef
  files : List FileEntry
  name : Option Text
  deriving DecidableEq

/-- `ManifestError`. -/
inductive ManifestError where
  | codec
  | badUri
  | hex
  | badChunk (index : Nat)
  | sizeMismatch (got expected : Nat)
  | badMagic
  | unsupportedVersion (version : UInt8)
  | invalid (reason : String)
  deriving DecidableEq

section Build

variable [Blake3]

/-- The spans of consecutive pieces, the first at `offset`. -/
def spansFrom (offset : Nat) : List Bytes → List ChunkSpan
  | [] => []
  | p :: ps =>
    ⟨UInt64.ofNat offset, UInt32.ofNat p.length, Hash.of p⟩ :: spansFrom (offset + p.length) ps

/-- `chunk`. -/
def chunk [FastCDC] (data : Bytes) : List ChunkSpan :=
  if data = [] then [] else spansFrom 0 (FastCDC.slice.pieces data)

/-- The hashes of a manifest's chunks, in order. -/
def Manifest.hashes (m : Manifest) : List Hash := m.chunks.map ChunkRef.hash

/-- What the loop of `from_files` has built. -/
structure Building where
  chunks : List ChunkRef
  files : List FileEntry
  globalOffset : Nat

/-- One file of the loop of `from_files`. -/
def Building.addFile [FastCDC] (b : Building) (file : Text × Bytes) : Building :=
  let spans := chunk file.2
  { chunks := b.chunks ++ spans.map fun s =>
      ⟨s.hash, UInt64.ofNat b.globalOffset + s.offset, s.length⟩
    files := b.files ++ [⟨file.1, UInt64.ofNat file.2.length, UInt64.ofNat b.chunks.length,
      UInt64.ofNat spans.length⟩]
    globalOffset := b.globalOffset + file.2.length }

/-- `Manifest::from_files`. -/
def Manifest.fromFiles [FastCDC] (files : List (Text × Bytes)) (name : Option Text) : Manifest :=
  let b := files.foldl Building.addFile ⟨[], [], 0⟩
  { root := merkleRoot (b.chunks.map ChunkRef.hash)
    totalSize := UInt64.ofNat b.globalOffset
    chunks := b.chunks
    files := b.files
    name := name }

/-- The path of the only file of an unnamed manifest. -/
def dataPath : Text := ⟨ascii "data", by decide⟩

/-- `Manifest::from_bytes`. -/
def Manifest.fromBytes [FastCDC] (data : Bytes) (name : Option Text) : Manifest :=
  Manifest.fromFiles [(name.getD dataPath, data)] name

/-! ## Checks -/

/-- `Manifest::root_is_consistent`. -/
def Manifest.rootIsConsistent (m : Manifest) : Bool := merkleRoot m.hashes == m.root

/-- `u64::saturating_add`. -/
def satAdd (a b : Nat) : Nat := min (a + b) (2 ^ 64 - 1)

/-- The declared lengths of some chunks, summed as `validate` sums them. -/
def chunkBytes (chunks : List ChunkRef) : Nat :=
  chunks.foldl (fun acc c => satAdd acc c.length.toNat) 0

/-- The loop of `validate` over the files: the cursor and the bytes after them. -/
def validateFiles (chunks : List ChunkRef) :
    List FileEntry → Nat → Nat → Except ManifestError (Nat × Nat)
  | [], cursor, fileBytes => .ok (cursor, fileBytes)
  | entry :: files, cursor, fileBytes =>
    if entry.chunkStart.toNat ≠ cursor then
      .error (.invalid "file chunk ranges must tile the chunk list")
    else if entry.chunkCount = 0 ∧ entry.size ≠ 0 then
      .error (.invalid "non-empty file owns zero chunks")
    else if 2 ^ 64 ≤ entry.chunkStart.toNat + entry.chunkCount.toNat then
      .error (.invalid "file chunk range overflows usize")
    else
      let stop := entry.chunkStart.toNat + entry.chunkCount.toNat
      if chunks.length < stop then .error (.invalid "file chunk range out of bounds")
      else
        let own := (chunks.drop entry.chunkStart.toNat).take entry.chunkCount.toNat
        if chunkBytes own ≠ entry.size.toNat then
          .error (.sizeMismatch (chunkBytes own) entry.size.toNat)
        else validateFiles chunks files stop (satAdd fileBytes entry.size.toNat)

/-- `Manifest::validate`. -/
def Manifest.validate (m : Manifest) : Except ManifestError Unit :=
  if chunkBytes m.chunks ≠ m.totalSize.toNat then
    .error (.sizeMismatch (chunkBytes m.chunks) m.totalSize.toNat)
  else
    match validateFiles m.chunks m.files 0 0 with
    | .error e => .error e
    | .ok (cursor, fileBytes) =>
      if cursor ≠ m.chunks.length then
        .error (.invalid "file chunk ranges must tile the chunk list")
      else if fileBytes ≠ m.totalSize.toNat then
        .error (.sizeMismatch fileBytes m.totalSize.toNat)
      else .ok ()

/-- `Manifest::proof`. -/
def Manifest.proof (m : Manifest) (index : Nat) : Option MerkleProof :=
  merkleProof m.hashes index

/-- `Manifest::chunk_hash_ok`. -/
def Manifest.chunkHashOk (m : Manifest) (index : Nat) (bytes : Bytes) : Bool :=
  match m.chunks[index]? with
  | some c => Hash.of bytes == c.hash
  | none => false

/-- `Manifest::verify_chunk`. -/
def Manifest.verifyChunk (m : Manifest) (index : Nat) (bytes : Bytes) : Bool :=
  match m.chunks[index]? with
  | none => false
  | some cref =>
    if Hash.of bytes ≠ cref.hash then false
    else
      match m.proof index with
      | some p => merkleVerify cref.hash p m.root
      | none => false

/-! ## Reconstruction

A `FnMut(&Hash) -> Option<Vec<u8>>` is a function that takes its own state along. -/

variable {σ : Type} (fetch : σ → Hash → Option Bytes × σ)

/-- The loop of `reconstruct`, from the chunk `index` on. -/
def Manifest.collectChunks (m : Manifest) :
    List ChunkRef → Nat → Bytes → σ → Except ManifestError Bytes × σ
  | [], _, out, s => (.ok out, s)
  | cref :: chunks, index, out, s =>
    match fetch s cref.hash with
    | (none, s) => (.error (.badChunk index), s)
    | (some bytes, s) =>
      if m.verifyChunk index bytes then m.collectChunks chunks (index + 1) (out ++ bytes) s
      else (.error (.badChunk index), s)

/-- `Manifest::reconstruct`. -/
def Manifest.reconstruct (m : Manifest) (s : σ) : Except ManifestError Bytes × σ :=
  match m.validate with
  | .error e => (.error e, s)
  | .ok () =>
    match m.collectChunks fetch m.chunks 0 [] s with
    | (.error e, s) => (.error e, s)
    | (.ok out, s) =>
      if out.length ≠ m.totalSize.toNat then
        (.error (.sizeMismatch out.length m.totalSize.toNat), s)
      else (.ok out, s)

/-- The inner loop of `reconstruct_files`: `count` chunks from the index `ci` on. -/
def Manifest.collectRange (m : Manifest) :
    Nat → Nat → Bytes → σ → Except ManifestError Bytes × σ
  | 0, _, fileBytes, s => (.ok fileBytes, s)
  | count + 1, ci, fileBytes, s =>
    match m.chunks[ci]? with
    | none => (.error (.invalid "file chunk range out of bounds"), s)
    | some cref =>
      match fetch s cref.hash with
      | (none, s) => (.error (.badChunk ci), s)
      | (some bytes, s) =>
        if m.verifyChunk ci bytes then m.collectRange count (ci + 1) (fileBytes ++ bytes) s
        else (.error (.badChunk ci), s)

/-- The outer loop of `reconstruct_files`. -/
def Manifest.collectFiles (m : Manifest) : List FileEntry → List (Text × Bytes) → σ →
    Except ManifestError (List (Text × Bytes)) × σ
  | [], out, s => (.ok out, s)
  | entry :: files, out, s =>
    match m.collectRange fetch entry.chunkCount.toNat entry.chunkStart.toNat [] s with
    | (.error e, s) => (.error e, s)
    | (.ok fileBytes, s) =>
      if fileBytes.length ≠ entry.size.toNat then
        (.error (.sizeMismatch fileBytes.length entry.size.toNat), s)
      else m.collectFiles files (out ++ [(entry.path, fileBytes)]) s

/-- `Manifest::reconstruct_files`. -/
def Manifest.reconstructFiles (m : Manifest) (s : σ) :
    Except ManifestError (List (Text × Bytes)) × σ :=
  match m.validate with
  | .error e => (.error e, s)
  | .ok () => m.collectFiles fetch m.files [] s

end Build

/-- The loop of `split_stream`. -/
def splitFiles (data : Bytes) :
    List FileEntry → Nat → List (Text × Bytes) → Except ManifestError (List (Text × Bytes))
  | [], _, out => .ok out
  | entry :: files, offset, out =>
    let stop := offset + entry.size.toNat
    if 2 ^ 64 ≤ stop ∨ data.length < stop then
      .error (.invalid "file sizes exceed the content stream")
    else
      splitFiles data files stop (out ++ [(entry.path, (data.drop offset).take entry.size.toNat)])

/-- `Manifest::split_stream`. -/
def Manifest.splitStream (m : Manifest) (data : Bytes) :
    Except ManifestError (List (Text × Bytes)) :=
  if data.length ≠ m.totalSize.toNat then
    .error (.sizeMismatch data.length m.totalSize.toNat)
  else
    match m.validate with
    | .error e => .error e
    | .ok () => splitFiles data m.files 0 []

/-! ## Two files of one byte -/

/-- Two names of files. -/
def pathA : Text := ⟨ascii "a", by decide⟩
def pathB : Text := ⟨ascii "b", by decide⟩

/-- The files `a` and `b` with the one byte `x` each. -/
def filesOfXX : List (Text × Bytes) := [(pathA, [120]), (pathB, [120])]

/-! ## Three files -/

/-- The files `a`, `b` and `c` with the bytes `x`, `xx` and `y`. -/
def filesOfThree : List (Text × Bytes) :=
  [(pathA, [120]), (pathB, [120, 120]), (⟨ascii "c", by decide⟩, [121])]

end Np2ptp
