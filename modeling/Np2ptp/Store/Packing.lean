import Np2ptp.Store.IngestLaws

/-!
# Packing from disk and in memory

`ingest_tree_files` builds its manifest file by file from the chunks of a reader, with offsets of
its own in each file; `from_files` builds it from slices, with offsets into the whole. The loop of
the one simulates the loop of the other on what the files contain (`Store.ingestDiskFiles_ok`), so
where reader and slice are cut alike the manifests are equal in every field (`packing_agrees`).
-/

namespace Np2ptp

open Lib

/-- The listed files are there, with these contents. -/
def Disk.HasFiles (d : Disk) (files : List (Text × Bytes)) (contents : List Bytes) : Prop :=
  files.map (fun f => d.sources.lookup f.2) = contents.map fun content => some (.file content)

instance (d : Disk) (files : List (Text × Bytes)) (contents : List Bytes) :
    Decidable (d.HasFiles files contents) :=
  inferInstanceAs (Decidable (_ = _))

/-- The contents are determined. -/
theorem Disk.HasFiles.unique {d : Disk} {files : List (Text × Bytes)}
    {contents contents' : List Bytes} (h : d.HasFiles files contents)
    (h' : d.HasFiles files contents') : contents = contents' := by
  refine List.map_injective_iff.mpr ?_ (h.symm.trans h')
  intro a b hab
  cases hab
  rfl

theorem Disk.hasFiles_cons {d : Disk} {f : Text × Bytes} {files : List (Text × Bytes)}
    {contents : List Bytes} : d.HasFiles (f :: files) contents ↔ ∃ content rest,
      contents = content :: rest ∧ d.sources.lookup f.2 = some (.file content) ∧
        d.HasFiles files rest := by
  unfold Disk.HasFiles
  cases contents with
  | nil => simp
  | cons content rest => simp

/-- The listed disk files are copies of some files in memory. -/
def Disk.Copies (d : Disk) (onDisk files : List (Text × Bytes)) : Prop :=
  onDisk.map Prod.fst = files.map Prod.fst ∧ d.HasFiles onDisk (files.map Prod.snd)

/-- Copies on disk determine the files. -/
theorem Disk.Copies.unique {d : Disk} {onDisk files files' : List (Text × Bytes)}
    (h : d.Copies onDisk files) (h' : d.Copies onDisk files') : files = files' := by
  have hpaths : files.map Prod.fst = files'.map Prod.fst := h.1.symm.trans h'.1
  have hcontents : files.map Prod.snd = files'.map Prod.snd := h.2.unique h'.2
  rw [← List.zip_unzip files, ← List.zip_unzip files', List.unzip_eq_map, List.unzip_eq_map,
    hpaths, hcontents]

/-- A first file is there, and the others are. -/
theorem Disk.copies_cons {d : Disk} {f : Text × Bytes} {onDisk files : List (Text × Bytes)} :
    d.Copies (f :: onDisk) files ↔ ∃ content rest, files = (f.1, content) :: rest ∧
      d.sources.lookup f.2 = some (.file content) ∧ d.Copies onDisk rest := by
  cases files with
  | nil => simp [Disk.Copies]
  | cons g files =>
    obtain ⟨path, content⟩ := g
    simp only [Disk.Copies, List.map_cons, List.cons.injEq, Disk.hasFiles_cons]
    constructor
    · rintro ⟨⟨hpath, hpaths⟩, _, _, ⟨rfl, rfl⟩, hf, hrest⟩
      exact ⟨content, files, ⟨by rw [hpath], rfl⟩, hf, hpaths, hrest⟩
    · rintro ⟨_, _, ⟨he, rfl⟩, hf, hpaths, hrest⟩
      cases he
      exact ⟨⟨rfl, hpaths⟩, content, files.map Prod.snd, ⟨rfl, rfl⟩, hf, hrest⟩

/-- The chunker when everything goes through a reader. -/
abbrev FastCDC.streaming [FastCDC] : FastCDC := ⟨FastCDC.stream, FastCDC.stream⟩

section

variable [Blake3]

/-! ## The loop from disk simulates the loop in memory -/

/-- A `put` that succeeds returns the hash of the bytes. -/
theorem Store.put_hash {d : Disk} {s : Store} {bytes : Bytes} {r : Hash × Bool}
    (h : (s.put d bytes).1 = .ok r) : r.1 = Hash.of bytes := by
  rcases Store.put_cases d s bytes with ⟨-, he⟩ | ⟨-, -, he⟩ | ⟨-, -, ⟨-, he⟩ | ⟨-, hw⟩⟩
  · rw [he] at h; cases h; rfl
  · rw [he] at h; cases h; rfl
  · rw [he] at h; cases h; rfl
  · rcases hw with ⟨p, d', -, he⟩ | ⟨id, offset, p, d', -, he⟩
    · rw [he] at h; cases h
    · rw [he] at h; cases h; rfl

/-- The references of a file whose pieces begin at `offset`. -/
def fileRefs (offset : Nat) (ps : List Bytes) : List ChunkRef :=
  (spansFrom offset ps).map fun s => ⟨s.hash, s.offset, s.length⟩

/-- The references of a file are those of its pieces, in order. -/
theorem Store.ingestPieces_ok {source : Option Bytes} {size : Nat} {refs' : List ChunkRef}
    {pieces : List Bytes} : ∀ {d : Disk} {s : Store} {offset : Nat} {refs : List ChunkRef},
    (s.ingestPieces d source pieces offset refs).1 = .ok (refs', size) →
    refs' = refs ++ fileRefs offset pieces ∧ size = offset + pieces.flatten.length := by
  induction pieces with
  | nil =>
    intro d s offset refs h
    cases h
    exact ⟨(List.append_nil _).symm, rfl⟩
  | cons data rest ih =>
    intro d s offset refs h
    have hnext : ∀ {d : Disk} {s : Store}, (s.ingestPieces d source rest (offset + data.length)
          (refs ++ [⟨Hash.of data, UInt64.ofNat offset, UInt32.ofNat data.length⟩])).1 =
        .ok (refs', size) →
        refs' = refs ++ fileRefs offset (data :: rest) ∧
          size = offset + (data :: rest).flatten.length := by
      intro d s h
      obtain ⟨hrefs, hsize⟩ := ih h
      rw [List.flatten_cons, List.length_append, ← Nat.add_assoc]
      exact ⟨by rw [hrefs, List.append_assoc]; rfl, hsize⟩
    cases source with
    | some src => exact hnext h
    | none =>
      rw [Store.ingestPieces] at h
      rcases hp : s.put d data with ⟨e | ⟨hash, new⟩, d', s'⟩
      · rw [hp] at h
        cases h
      · rw [hp] at h
        have hhash : hash = Hash.of data := Store.put_hash (congrArg Prod.fst hp)
        subst hhash
        exact hnext h

variable [FastCDC]

/-- A file that is ingested is there. -/
theorem Store.ingestFileStreaming_ok {d : Disk} {s : Store} {path : Bytes}
    {noCopy : Bool} {refs : List ChunkRef} {size : Nat}
    (h : (s.ingestFileStreaming d path noCopy).1 = .ok (refs, size)) :
    ∃ content, d.sources.lookup path = some (.file content) ∧
      refs = fileRefs 0 (FastCDC.stream.pieces content) ∧ size = content.length := by
  unfold Store.ingestFileStreaming at h
  dsimp only at h
  generalize (if noCopy = true then d.canonicalize path else none) = source at h
  split at h
  · cases h
  · split at h
    · next content hsource =>
      obtain ⟨hrefs, hsize⟩ := Store.ingestPieces_ok h
      rw [FastCDC.stream.flatten_pieces, Nat.zero_add] at hsize
      exact ⟨content, hsource, hrefs, hsize⟩
    · cases h

/-- What the loop of `ingest_tree_files_impl` has built, as the loop of `from_files` builds it. -/
def Ingesting.building (b : Ingesting) : Building := ⟨b.chunks, b.entries, b.global⟩

/-- The loop over disk files builds what the loop of `from_files` builds of their contents, cut as
a reader cuts them. -/
theorem Store.ingestDiskFiles_ok {noCopy : Bool} {b' : Ingesting} {onDisk : List (Text × Bytes)} :
    ∀ {d : Disk} {s : Store} {b : Ingesting},
    (s.ingestDiskFiles d noCopy onDisk b).1 = .ok b' → ∃ files, d.Copies onDisk files ∧
      b'.building = files.foldl (@Building.addFile _ FastCDC.streaming) b.building := by
  induction onDisk with
  | nil =>
    intro d s b h
    cases h
    exact ⟨[], ⟨rfl, rfl⟩, rfl⟩
  | cons f onDisk ih =>
    intro d s b h
    obtain ⟨rel, path⟩ := f
    have hsteps : IsSteps (fun _ => True) (d, s) (s.ingestFileStreaming d path noCopy).2 :=
      ingestFileStreaming_isSteps fun _ _ _ => trivial
    rw [Store.ingestDiskFiles] at h
    rcases hf : s.ingestFileStreaming d path noCopy with ⟨e | ⟨refs, size⟩, d', s'⟩
    · rw [hf] at h
      cases h
    · rw [hf] at h hsteps
      obtain ⟨content, hsource, rfl, rfl⟩ := Store.ingestFileStreaming_ok (congrArg Prod.fst hf)
      obtain ⟨files, hfiles, hbuilt⟩ := ih h
      have hsources : d'.sources = d.sources := hsteps.outside.1
      rw [Disk.Copies, Disk.HasFiles, hsources] at hfiles
      refine ⟨(rel, content) :: files,
        Disk.copies_cons.mpr ⟨content, files, rfl, hsource, hfiles⟩, ?_⟩
      have hspans : @chunk _ FastCDC.streaming content =
          spansFrom 0 (FastCDC.stream.pieces content) := @chunk_eq _ FastCDC.streaming content
      rw [hbuilt, List.foldl_cons]
      congr 1
      simp [Ingesting.building, Building.addFile, hspans, fileRefs, Function.comp_def]

/-- The manifest of an ingest from disk is the one of the contents, cut as a reader cuts them. -/
theorem Store.ingestTreeFiles_ok {d : Disk} {s : Store} {onDisk : List (Text × Bytes)}
    {name : Option Text} {noCopy : Bool} {m : Manifest}
    (h : (s.ingestTreeFiles d onDisk name noCopy).1 = .ok m) :
    ∃ files, d.Copies onDisk files ∧ m = @Manifest.fromFiles _ FastCDC.streaming files name := by
  rw [Store.ingestTreeFiles] at h
  rcases hb : s.ingestDiskFiles d noCopy onDisk ⟨[], [], 0⟩ with ⟨e | b, d', s'⟩
  · rw [hb] at h
    cases h
  · rw [hb] at h
    cases h
    obtain ⟨files, hfiles, hbuilt⟩ := Store.ingestDiskFiles_ok (congrArg Prod.fst hb)
    refine ⟨files, hfiles, ?_⟩
    have hstart : Ingesting.building ⟨[], [], 0⟩ = ⟨[], [], 0⟩ := rfl
    rw [hstart] at hbuilt
    unfold Manifest.fromFiles
    rw [← hbuilt]
    rfl

/-- In memory the manifest is that of the files. -/
theorem Store.ingestTree_ok {d : Disk} {s : Store} {files : List (Text × Bytes)}
    {name : Option Text} {m : Manifest} (h : (s.ingestTree d files name).1 = .ok m) :
    m = Manifest.fromFiles files name := by
  rw [Store.ingestTree] at h
  split at h
  · cases h
  · cases h
    rfl

/-! ## When an ingest from disk succeeds -/

omit [FastCDC] in
/-- References are only written down. -/
theorem Store.ingestPieces_of_source {src : Bytes} {pieces : List Bytes} :
    ∀ {d : Disk} {s : Store} {offset : Nat} {refs : List ChunkRef},
    ∃ r, (s.ingestPieces d (some src) pieces offset refs).1 = .ok r := by
  induction pieces with
  | nil => exact fun {_ _ _ _} => ⟨_, rfl⟩
  | cons data rest ih =>
    intro d s offset refs
    exact ih

omit [FastCDC] in
/-- Chunks that fit are stored. -/
theorem Store.ingestPieces_of_room {pieces : List Bytes} :
    ∀ {n : Nat} {d : Disk} (s : Store) (offset : Nat) (refs : List ChunkRef), d.HasRoom n →
    pieces.flatten.length ≤ n →
    (∃ r, (s.ingestPieces d none pieces offset refs).1 = .ok r) ∧
      (s.ingestPieces d none pieces offset refs).2.1.HasRoom (n - pieces.flatten.length) := by
  induction pieces with
  | nil =>
    intro n d s offset refs h _
    exact ⟨⟨_, rfl⟩, h⟩
  | cons data rest ih =>
    intro n d s offset refs h hle
    rw [List.flatten_cons, List.length_append] at hle ⊢
    obtain ⟨⟨r, hr⟩, hroom⟩ := Store.put_of_room h (by omega : data.length ≤ n) s
    rw [Store.ingestPieces]
    rcases hp : s.put d data with ⟨e | ⟨hash, new⟩, d', s'⟩
    · rw [hp] at hr
      cases hr
    · rw [hp] at hroom
      rw [← Nat.sub_sub]
      exact ih s' _ _ hroom (by omega)

/-- What an ingest from disk needs: references, a canonical path of every file; copies, room. -/
def Disk.Takes (d : Disk) (noCopy : Bool) (onDisk : List (Text × Bytes)) (n : Nat) : Prop :=
  if noCopy = true then ∀ f ∈ onDisk, d.canonicalize f.2 ≠ none else d.HasRoom n

theorem Store.ingestFileStreaming_of_takes {d : Disk} {s : Store} {noCopy : Bool} {n : Nat}
    {f : Text × Bytes} {onDisk : List (Text × Bytes)} {content : Bytes}
    (h : d.Takes noCopy (f :: onDisk) n) (hle : content.length ≤ n)
    (hsource : d.sources.lookup f.2 = some (.file content)) :
    (∃ r, (s.ingestFileStreaming d f.2 noCopy).1 = .ok r) ∧
      (s.ingestFileStreaming d f.2 noCopy).2.1.Takes noCopy onDisk (n - content.length) := by
  have hflat := FastCDC.stream.flatten_pieces content
  have hsteps : IsSteps (fun _ => True) (d, s) (s.ingestFileStreaming d f.2 noCopy).2 :=
    ingestFileStreaming_isSteps fun _ _ _ => trivial
  have hcanonicalize := hsteps.outside.2
  unfold Disk.Takes at h ⊢
  cases noCopy with
  | true =>
    simp only [if_true] at h ⊢
    obtain ⟨src, hsrc⟩ := Option.ne_none_iff_exists'.mp (h f List.mem_cons_self)
    constructor
    · rw [Store.ingestFileStreaming]
      simp only [if_true, hsrc, hsource]
      exact Store.ingestPieces_of_source
    · intro g hg
      rw [hcanonicalize]
      exact h g (List.mem_cons_of_mem _ hg)
  | false =>
    simp only [Bool.false_eq_true, if_false] at h ⊢
    rw [Store.ingestFileStreaming]
    simp only [Bool.false_eq_true, false_and, if_false, hsource]
    have hroom := Store.ingestPieces_of_room s 0 [] h (by rwa [hflat])
    rwa [hflat] at hroom

/-- Files that are there are ingested from disk. -/
theorem Store.ingestDiskFiles_of_takes {noCopy : Bool} {onDisk : List (Text × Bytes)} :
    ∀ {n : Nat} {d : Disk} {s : Store} {b : Ingesting} {files : List (Text × Bytes)},
    d.Copies onDisk files → d.Takes noCopy onDisk n → (treeBytes files).length ≤ n →
    ∃ b', (s.ingestDiskFiles d noCopy onDisk b).1 = .ok b' := by
  induction onDisk with
  | nil => exact fun {_ _ _ _ _} _ _ _ => ⟨_, rfl⟩
  | cons f onDisk ih =>
    intro n d s b files hcopies htakes hle
    obtain ⟨content, rest, rfl, hsource, hrest⟩ := Disk.copies_cons.mp hcopies
    rw [treeBytes_cons, List.length_append] at hle
    have hcontent : content.length ≤ n := Nat.le_trans (Nat.le_add_right _ _) hle
    have hbytes : (treeBytes rest).length ≤ n - content.length := Nat.le_sub_of_add_le' hle
    obtain ⟨⟨⟨refs, size⟩, hr⟩, htakes'⟩ :=
      Store.ingestFileStreaming_of_takes (s := s) htakes hcontent hsource
    have hsteps : IsSteps (fun _ => True) (d, s) (s.ingestFileStreaming d f.2 noCopy).2 :=
      ingestFileStreaming_isSteps fun _ _ _ => trivial
    have hsources := hsteps.outside.1
    obtain ⟨rel, path⟩ := f
    rw [Store.ingestDiskFiles]
    rcases hf : s.ingestFileStreaming d path noCopy with ⟨e | r, d', s'⟩
    · rw [hf] at hr
      cases hr
    · rw [hf] at htakes' hsources
      have hrest' : d'.Copies onDisk rest := by
        rw [Disk.Copies, Disk.HasFiles, show d'.sources = d.sources from hsources]
        exact hrest
      exact ih hrest' htakes' hbytes

/-! ## One manifest -/

omit [FastCDC] in
/-- Chunkers that cut the files alike build one manifest of them. -/
theorem Manifest.fromFiles_congr {A B : FastCDC} {files : List (Text × Bytes)}
    (name : Option Text) (h : ∀ f ∈ files, A.slice.pieces f.2 = B.slice.pieces f.2) :
    @Manifest.fromFiles _ A files name = @Manifest.fromFiles _ B files name := by
  have hfold : ∀ (fs : List (Text × Bytes)) (b : Building), (∀ f ∈ fs, f ∈ files) →
      fs.foldl (@Building.addFile _ A) b = fs.foldl (@Building.addFile _ B) b := by
    intro fs
    induction fs with
    | nil => exact fun _ _ => rfl
    | cons f fs ih =>
      intro b hfs
      have hchunk : @chunk _ A f.2 = @chunk _ B f.2 := by
        rw [@chunk_eq _ A, @chunk_eq _ B, h f (hfs f List.mem_cons_self)]
      have hadd : @Building.addFile _ A b f = @Building.addFile _ B b f := by
        unfold Building.addFile
        rw [hchunk]
      rw [List.foldl_cons, List.foldl_cons, hadd]
      exact ih _ fun g hg => hfs g (List.mem_cons_of_mem _ hg)
  unfold Manifest.fromFiles
  rw [hfold files ⟨[], [], 0⟩ fun _ hf => hf]

/-- Streaming and in-memory packing give the same manifest, which is the one `from_files` builds,
in every field, from whatever state of whatever store they start, copying or not, as long as reader
and slice are cut alike. Each of them gives it as soon as the files fit, or can be referenced. -/
theorem packing_agrees (files : List (Text × Bytes)) (name : Option Text)
    (hcut : ∀ f ∈ files, FastCDC.stream.pieces f.2 = FastCDC.slice.pieces f.2) (d : Disk)
    (s : Store) :
    ((∀ m, (s.ingestTree d files name).1 = .ok m → m = Manifest.fromFiles files name) ∧
      (d.HasRoom (treeBytes files).length →
        (s.ingestTree d files name).1 = .ok (Manifest.fromFiles files name))) ∧
      ∀ onDisk, d.Copies onDisk files → ∀ noCopy,
        (∀ m, (s.ingestTreeFiles d onDisk name noCopy).1 = .ok m →
          m = Manifest.fromFiles files name) ∧
        (d.Takes noCopy onDisk (treeBytes files).length →
          (s.ingestTreeFiles d onDisk name noCopy).1 = .ok (Manifest.fromFiles files name)) := by
  refine ⟨⟨fun m h => Store.ingestTree_ok h, fun hroom => ?_⟩, fun onDisk hcopies noCopy => ?_⟩
  · have hsize := hroom 0
    rw [MAX_FILE] at hsize
    exact ingestTree_of_room s name (by omega) hroom
  · have hequal : ∀ m, (s.ingestTreeFiles d onDisk name noCopy).1 = .ok m →
        m = Manifest.fromFiles files name := by
      intro m h
      obtain ⟨files', hcopies', rfl⟩ := Store.ingestTreeFiles_ok h
      obtain rfl := hcopies.unique hcopies'
      exact Manifest.fromFiles_congr name hcut
    refine ⟨hequal, fun htakes => ?_⟩
    obtain ⟨b, hb⟩ := Store.ingestDiskFiles_of_takes (s := s) (b := ⟨[], [], 0⟩) hcopies htakes
      (Nat.le_refl _)
    rcases hr : (s.ingestTreeFiles d onDisk name noCopy).1 with e | m
    · rw [Store.ingestTreeFiles] at hr
      rcases hd : s.ingestDiskFiles d noCopy onDisk ⟨[], [], 0⟩ with ⟨e' | b', d', s'⟩
      · rw [hd] at hb
        cases hb
      · rw [hd] at hr
        cases hr
    · rw [hequal m hr]

end

/-- A fresh store beside the three files. -/
def packedOfThree : Disk :=
  ⟨[], [], ∅, ∅, insertAll ∅ (filesOfThree.map fun f => (f.1.bytes, .file f.2)), some⟩

/-- The three files are packed alike from memory and from disk. -/
theorem packing_agrees_three :
    let _ := blake3OfThree
    let _ := minFastCDC
    let m := Manifest.fromFiles filesOfThree none
    let onDisk := filesOfThree.map fun f => (f.1, f.1.bytes)
    (Store.ingestTree packedOfThree ⟨∅, ∅, 0, 0, ⟨0, 0⟩⟩ filesOfThree none).1 = .ok m ∧
      (Store.ingestTreeFiles packedOfThree ⟨∅, ∅, 0, 0, ⟨0, 0⟩⟩ onDisk none true).1 = .ok m := by
  intro _ _ m onDisk
  have hroom : packedOfThree.HasRoom 4 := fun _ => by
    rw [packedOfThree, Finmap.lookup_empty, MAX_FILE]
    decide
  have hcopies : packedOfThree.Copies onDisk filesOfThree := ⟨rfl, by
    decide +kernel⟩
  obtain ⟨⟨-, hmemory⟩, hdisk⟩ := packing_agrees filesOfThree none (fun _ _ => rfl) packedOfThree
    ⟨∅, ∅, 0, 0, ⟨0, 0⟩⟩
  refine ⟨hmemory hroom, (hdisk onDisk hcopies true).2 ?_⟩
  intro f hf
  exact Option.some_ne_none f.2

end Np2ptp
