import Np2ptp.Bridge.Torrent
import Np2ptp.Store.Lookup

/-!
# Converting a torrent

`convert` and `convert_local`: content that has passed the piece check is ingested, and the root of
the manifest is the content id that the network knows it by. The check looks at one stream of bytes
(`Pinned`) and the ingest at one file after the other, each of which ends its last chunk, so the
content id is a matter of where the files end as well (`Conversion.run_ok`). Nothing compares where
they end with the lengths that the torrent declares; what follows for two converters of one torrent
is `converters_agree_iff`.
-/

namespace Np2ptp

open Lib

/-- `Path::join`. -/
def joinPath (dir path : Bytes) : Bytes :=
  if path.head? = some 47 then path
  else if dir = [] ∨ dir.getLast? = some 47 then dir ++ path
  else dir ++ 47 :: path

/-- The files of the torrent, and where they are looked for. -/
def TorrentMeta.onDisk (info : TorrentMeta) (dataDir : Bytes) : List (Text × Bytes) :=
  info.files.map fun f => (f.path, joinPath dataDir f.path.bytes)

section

variable [Blake3] [FastCDC] [Sha1]

/-- `convert_local`. -/
def convertLocal (d : Disk) (s : Store) (info : TorrentMeta) (dataDir : Bytes) (noCopy : Bool) :
    Except BridgeError Manifest × Disk × Store :=
  let files := info.onDisk dataDir
  match d.verifyPiecesStreaming files info.pieceLength.toNat info.pieceHashes with
  | .error e => (.error e, d, s)
  | .ok () =>
    match s.ingestTreeFiles d files (some info.name) noCopy with
    | (.error e, d, s) => (.error (.store e), d, s)
    | (.ok m, d, s) => (.ok m, d, s)

/-- `convert`, given what the source fetches. -/
def convert (d : Disk) (s : Store) (fetched : Except BridgeError TorrentDownload) :
    Except BridgeError (Manifest × TorrentMeta) × Disk × Store :=
  match fetched with
  | .error e => (.error e, d, s)
  | .ok dl =>
    if verifyPieces dl.files dl.info.pieceLength.toNat dl.info.pieceHashes then
      match s.ingestTree d dl.files (some dl.info.name) with
      | (.error e, d, s) => (.error (.store e), d, s)
      | (.ok m, d, s) => (.ok (m, dl.info), d, s)
    else (.error .pieceVerificationFailed, d, s)

end

/-! ## Converters of one torrent -/

section

variable [Blake3] [FastCDC] [Sha1]

theorem convertLocal_ok {d : Disk} {s : Store} {info : TorrentMeta} {dataDir : Bytes}
    {noCopy : Bool} {m : Manifest} : (convertLocal d s info dataDir noCopy).1 = .ok m ↔
      d.verifyPiecesStreaming (info.onDisk dataDir) info.pieceLength.toNat info.pieceHashes =
          .ok () ∧
        (s.ingestTreeFiles d (info.onDisk dataDir) (some info.name) noCopy).1 = .ok m := by
  unfold convertLocal
  dsimp only
  cases d.verifyPiecesStreaming (info.onDisk dataDir) info.pieceLength.toNat info.pieceHashes with
  | error e => simp
  | ok u =>
    rcases s.ingestTreeFiles d (info.onDisk dataDir) (some info.name) noCopy with ⟨e | m', d', s'⟩
    · simp
    · simp

theorem convert_ok {d : Disk} {s : Store} {dl : TorrentDownload} {m : Manifest} :
    (convert d s (.ok dl)).1.map Prod.fst = .ok m ↔
      verifyPieces dl.files dl.info.pieceLength.toNat dl.info.pieceHashes = true ∧
        (s.ingestTree d dl.files (some dl.info.name)).1 = .ok m := by
  unfold convert
  dsimp only
  cases verifyPieces dl.files dl.info.pieceLength.toNat dl.info.pieceHashes with
  | false => simp [Except.map]
  | true =>
    rcases s.ingestTree d dl.files (some dl.info.name) with ⟨e | m', d', s'⟩
    · simp [Except.map]
    · simp [Except.map]

end

/-- What a path holds; nothing where there is no file. -/
def Disk.contentOf (d : Disk) (path : Bytes) : Bytes :=
  match d.sources.lookup path with
  | some (.file content) => content
  | _ => []

theorem Disk.HasFiles.contentOf {d : Disk} {files : List (Text × Bytes)} {contents : List Bytes}
    (h : d.HasFiles files contents) : files.map (fun f => d.contentOf f.2) = contents := by
  induction files generalizing contents with
  | nil =>
    cases contents with
    | nil => rfl
    | cons content rest => cases h
  | cons f files ih =>
    obtain ⟨content, rest, rfl, hf, hrest⟩ := Disk.hasFiles_cons.mp h
    rw [List.map_cons, ih hrest, Disk.contentOf, hf]

/-- A conversion of a torrent: from a directory into a store, or of files that a source fetched. -/
inductive Conversion where
  | fromDisk (d : Disk) (s : Store) (dataDir : Bytes) (noCopy : Bool)
  | inMemory (d : Disk) (s : Store) (files : List (Text × Bytes))

namespace Conversion

/-- What is converted, file by file; nothing where a file is not there. -/
def contents (info : TorrentMeta) : Conversion → List Bytes
  | .fromDisk d _ dataDir _ => (info.onDisk dataDir).map fun f => d.contentOf f.2
  | .inMemory _ _ files => files.map Prod.snd

section

variable [FastCDC]

/-- The cutter that the content goes through. -/
def cutter : Conversion → Cutter
  | .fromDisk .. => FastCDC.stream
  | .inMemory .. => FastCDC.slice

/-- The content cut file by file. -/
def pieces (info : TorrentMeta) (c : Conversion) : List Bytes :=
  (c.contents info).flatMap c.cutter.pieces

variable [Blake3] [Sha1]

/-- What the converter gets. -/
def run (info : TorrentMeta) : Conversion → Except BridgeError Manifest
  | .fromDisk d s dataDir noCopy => (convertLocal d s info dataDir noCopy).1
  | .inMemory d s files => (convert d s (.ok ⟨info, files⟩)).1.map Prod.fst

/-- A conversion that succeeds has been given content with the piece hashes, and its manifest
commits to that content cut file by file. -/
theorem run_ok {info : TorrentMeta} {c : Conversion} {m : Manifest} (h : c.run info = .ok m) :
    Pinned info.pieceLength.toNat info.pieceHashes (c.contents info).flatten ∧
      m.hashes = (c.pieces info).map Hash.of ∧ m.root = merkleRoot m.hashes := by
  cases c with
  | fromDisk d s dataDir noCopy =>
    obtain ⟨hverify, hingest⟩ := convertLocal_ok.mp h
    obtain ⟨contents, hfiles, hpinned⟩ := verifyPiecesStreaming_iff.mp hverify
    obtain ⟨files, hcopies, rfl⟩ := Store.ingestTreeFiles_ok hingest
    obtain rfl := hfiles.unique hcopies.2
    have hcontents : (fromDisk d s dataDir noCopy).contents info = files.map Prod.snd :=
      hfiles.contentOf
    have hpieces : (files.map Prod.snd).flatMap FastCDC.stream.pieces =
        @treePieces FastCDC.streaming files := by
      rw [List.flatMap_map]
      rfl
    rw [pieces, hcontents]
    refine ⟨hpinned, ?_, rfl⟩
    rw [@Manifest.hashes_fromFiles _ FastCDC.streaming, ← hpieces]
    rfl
  | inMemory d s files =>
    obtain ⟨hverify, hingest⟩ := convert_ok.mp h
    obtain rfl := Store.ingestTree_ok hingest
    refine ⟨verifyPieces_iff.mp hverify, ?_, Manifest.root_fromFiles files (some info.name)⟩
    rw [Manifest.hashes_fromFiles, treePieces, pieces, contents, List.flatMap_map]
    rfl

/-- Two converters of one torrent agree on the content id if and only if their files, cut one by
one, make the same pieces, or BLAKE3 digests collide. They do where the files are as long as the
others' and go through one cutter, unless SHA-1 digests collide; that the lengths are the ones that
the torrent declares is not checked. -/
theorem converters_agree_iff {info : TorrentMeta} {a b : Conversion} {m n : Manifest}
    (ha : a.run info = .ok m) (hb : b.run info = .ok n) :
    ((m.root = n.root ↔ a.pieces info = b.pieces info) ∨
        Collision Hash.of (merkleStrings m.hashes ++ a.pieces info)
          (merkleStrings n.hashes ++ b.pieces info)) ∧
      ((a.contents info).map List.length = (b.contents info).map List.length →
        a.cutter = b.cutter → a.pieces info = b.pieces info ∨
          Collision Sha1.digest (blocks info.pieceLength.toNat (a.contents info).flatten)
            (blocks info.pieceLength.toNat (b.contents info).flatten)) := by
  obtain ⟨hpinned, hhashes, hroot⟩ := run_ok ha
  obtain ⟨hpinned', hhashes', hroot'⟩ := run_ok hb
  constructor
  · have hsame : a.pieces info = b.pieces info → m.root = n.root := by
      intro h
      rw [hroot, hroot', hhashes, hhashes', h]
    by_cases hr : m.root = n.root
    · rw [hroot, hroot'] at hr
      rcases merkleRoot_inj hr with heq | hc
      · rw [hhashes, hhashes'] at heq
        rcases eq_or_collision_of_map_eq heq with hp | hc
        · exact .inl (iff_of_true (hsame hp) hp)
        · exact .inr (hc.mono (List.subset_append_right _ _) (List.subset_append_right _ _))
      · exact .inr (hc.mono (List.subset_append_left _ _) (List.subset_append_left _ _))
    · exact .inl (iff_of_false hr fun h => hr (hsame h))
  · intro hlengths hcutter
    refine (hpinned.eq_or_collision hpinned').imp_left fun hstream => ?_
    rw [pieces, pieces, hcutter, List.eq_iff_flatten_eq.mpr ⟨hstream, hlengths⟩]

end

end Conversion

/-! ## Two bytes in two files

The torrent of the files `a` and `b` of one byte `x` each, and two directories with its bytes: one
as the torrent has it, one with both bytes in `a`. The digests are those of BLAKE3 and SHA-1. -/

/-- The SHA-1 digest of the bytes `xx`. -/
def sha1DigestOfXX : Sha1Digest :=
  ⟨[0xdd, 0x7b, 0x7b, 0x74, 0xea, 0x16, 0x0e, 0x04, 0x9d, 0xd1, 0x28, 0x47, 0x8e, 0x07, 0x4c,
    0xe4, 0x72, 0x54, 0xbd, 0xe8], rfl⟩

/-- SHA-1 on this string. -/
abbrev sha1OfXX : Sha1 := .ofTable [([120, 120], sha1DigestOfXX)]

def torrentOfXX : TorrentMeta where
  infohash := List.replicate 20 1
  name := torrentName
  files := [⟨pathA, 1⟩, ⟨pathB, 1⟩]
  pieceLength := 16384
  pieceHashes := [sha1DigestOfXX]

/-- Both directories, and a fresh store. -/
def diskOfXX : Disk :=
  .fresh ∅ ((((Finmap.singleton (ascii "/1/a") (.file [120])).insert (ascii "/1/b")
    (.file [120])).insert (ascii "/2/a") (.file [120, 120])).insert (ascii "/2/b") (.file [])) some

/-- The files of the other directory. -/
def shiftedOfXX : List (Text × Bytes) := [(pathA, [120, 120]), (pathB, [])]

theorem run_filesOfXX :
    let _ := blake3OfXX
    let _ := minFastCDC
    let _ := sha1OfXX
    (Conversion.fromDisk diskOfXX .fresh (ascii "/1") false).run torrentOfXX =
      .ok (Manifest.fromFiles filesOfXX (some torrentOfXX.name)) := by
  have hingest : (@Store.ingestTreeFiles blake3OfXX minFastCDC diskOfXX Store.fresh
      (torrentOfXX.onDisk (ascii "/1")) (some torrentOfXX.name) false).1 =
    .ok (@Manifest.fromFiles blake3OfXX minFastCDC filesOfXX (some torrentOfXX.name)) := by
    decide +kernel
  have hpinned : @Pinned sha1OfXX 16384 [sha1DigestOfXX] [120, 120] := by decide +kernel
  have hfiles : diskOfXX.HasFiles (torrentOfXX.onDisk (ascii "/1")) [[120], [120]] := by
    decide +kernel
  let _ := blake3OfXX
  let _ := minFastCDC
  let _ := sha1OfXX
  exact convertLocal_ok.mpr ⟨verifyPiecesStreaming_iff.mpr ⟨_, hfiles, hpinned⟩, hingest⟩

/-- The converter of the files in memory agrees with the one of the first directory. -/
theorem converters_agree_xx :
    let _ := blake3OfXX
    let _ := minFastCDC
    let _ := sha1OfXX
    ∃ m n, (Conversion.fromDisk diskOfXX .fresh (ascii "/1") false).run torrentOfXX = .ok m ∧
      (Conversion.inMemory diskOfXX .fresh filesOfXX).run torrentOfXX = .ok n ∧
      (m.root = n.root ∨ Collision Hash.of (merkleStrings m.hashes ++ [[120], [120]])
        (merkleStrings n.hashes ++ [[120], [120]])) := by
  have hmemory : @Conversion.run minFastCDC blake3OfXX sha1OfXX torrentOfXX
      (.inMemory diskOfXX .fresh filesOfXX) =
    .ok (@Manifest.fromFiles blake3OfXX minFastCDC filesOfXX (some torrentOfXX.name)) := by
    decide +kernel
  have hdisk := run_filesOfXX
  have hpieces : @Conversion.pieces minFastCDC torrentOfXX
      (.fromDisk diskOfXX .fresh (ascii "/1") false) = [[120], [120]] := by decide +kernel
  have hpieces' : @Conversion.pieces minFastCDC torrentOfXX
      (.inMemory diskOfXX .fresh filesOfXX) = [[120], [120]] := by decide +kernel
  let _ := blake3OfXX
  let _ := minFastCDC
  let _ := sha1OfXX
  refine ⟨_, _, hdisk, hmemory, ?_⟩
  have h := (Conversion.converters_agree_iff hdisk hmemory).1
  rw [hpieces, hpieces'] at h
  exact h.imp_left fun hroots => hroots.mpr rfl

/-- Converters disagree: both directories pass the check, with one stream of bytes, and the
manifests have different roots. -/
theorem converters_disagree_xx :
    let _ := blake3OfXX
    let _ := minFastCDC
    let _ := sha1OfXX
    let first := Conversion.fromDisk diskOfXX .fresh (ascii "/1") false
    let second := Conversion.fromDisk diskOfXX .fresh (ascii "/2") false
    (first.contents torrentOfXX).flatten = (second.contents torrentOfXX).flatten ∧
      ∃ m n, first.run torrentOfXX = .ok m ∧ second.run torrentOfXX = .ok n ∧
        m.root ≠ n.root := by
  have hingest : (@Store.ingestTreeFiles blake3OfXX minFastCDC diskOfXX Store.fresh
      (torrentOfXX.onDisk (ascii "/2")) (some torrentOfXX.name) false).1 =
    .ok (@Manifest.fromFiles blake3OfXX minFastCDC shiftedOfXX (some torrentOfXX.name)) := by
    decide +kernel
  have hpinned : @Pinned sha1OfXX 16384 [sha1DigestOfXX] [120, 120] := by decide +kernel
  have hfiles : diskOfXX.HasFiles (torrentOfXX.onDisk (ascii "/2")) [[120, 120], []] := by
    decide +kernel
  have hdisk := run_filesOfXX
  have hroots : (@Manifest.fromFiles blake3OfXX minFastCDC filesOfXX (some torrentOfXX.name)).root ≠
      (@Manifest.fromFiles blake3OfXX minFastCDC shiftedOfXX (some torrentOfXX.name)).root := by
    decide +kernel
  let _ := blake3OfXX
  let _ := minFastCDC
  let _ := sha1OfXX
  refine ⟨by decide +kernel, _, _, hdisk, ?_, hroots⟩
  exact convertLocal_ok.mpr ⟨verifyPiecesStreaming_iff.mpr ⟨_, hfiles, hpinned⟩, hingest⟩

end Np2ptp
