import Np2ptp.Store.HandleLaws

/-!
# Ingesting content into a store

`ingest`, `ingest_tree`, `ingest_file_streaming` and `ingest_tree_files`, copying and not. Every one
of them is a series of `put`, `has` and `add_reference` calls on the handle, which is what
`ingest_isSteps` and its companions say; what holds across those three therefore holds across an
ingest, whether it succeeds or stops half way. The progress callbacks are left out.
-/

namespace Np2ptp

open Lib

variable [Blake3]

/-- `put` of some chunks in order, up to the first that fails. -/
def Store.putAll (d : Disk) (s : Store) : List Bytes → Except StoreError Unit × Disk × Store
  | [] => (.ok (), d, s)
  | bytes :: rest =>
    match s.put d bytes with
    | (.error e, d, s) => (.error e, d, s)
    | (.ok _, d, s) => Store.putAll d s rest

/-- The slices of `data` that a chunk list names. -/
def chunkSlices (data : Bytes) (chunks : List ChunkRef) : List Bytes :=
  chunks.map fun c => (data.drop c.offset.toNat).take c.length.toNat

/-- `Store::ingest`. -/
def Store.ingest [FastCDC] (d : Disk) (s : Store) (data : Bytes) (name : Option Text) :
    Except StoreError Manifest × Disk × Store :=
  let m := Manifest.fromBytes data name
  match s.putAll d (chunkSlices data m.chunks) with
  | (.error e, d, s) => (.error e, d, s)
  | (.ok (), d, s) => (.ok m, d, s)

/-- Consecutive slices of `data` from `start` on, as long as the listed chunks. -/
def consecutiveSlices (data : Bytes) : Nat → List ChunkRef → List Bytes
  | _, [] => []
  | start, c :: chunks =>
    (data.drop start).take c.length.toNat :: consecutiveSlices data (start + c.length.toNat) chunks

/-- The slices that `ingest_tree` stores, file after file. -/
def treeSlices (m : Manifest) (files : List (Text × Bytes)) : List Bytes :=
  (m.files.zip files).flatMap fun (entry, _, data) =>
    consecutiveSlices data 0 ((m.chunks.drop entry.chunkStart.toNat).take entry.chunkCount.toNat)

/-- `Store::ingest_tree`. -/
def Store.ingestTree [FastCDC] (d : Disk) (s : Store) (files : List (Text × Bytes))
    (name : Option Text) : Except StoreError Manifest × Disk × Store :=
  let m := Manifest.fromFiles files name
  match s.putAll d (treeSlices m files) with
  | (.error e, d, s) => (.error e, d, s)
  | (.ok (), d, s) => (.ok m, d, s)

/-- The loop of `ingest_file_streaming_impl` over the chunks of a file; `source` is the canonical
path where the bytes are referenced instead of copied. -/
def Store.ingestPieces (d : Disk) (s : Store) (source : Option Bytes) :
    List Bytes → Nat → List ChunkRef → Except StoreError (List ChunkRef × Nat) × Disk × Store
  | [], offset, refs => (.ok (refs, offset), d, s)
  | data :: rest, offset, refs =>
    let length := UInt32.ofNat data.length
    let next (hash : Hash) (d : Disk) (s : Store) :=
      Store.ingestPieces d s source rest (offset + data.length)
        (refs ++ [⟨hash, UInt64.ofNat offset, length⟩])
    match source with
    | some src =>
      let hash := Hash.of data
      let (_, s) := s.has d hash
      let (d, s) := s.addReference d hash src (UInt64.ofNat offset) length
      next hash d s
    | none =>
      match s.put d data with
      | (.error e, d, s) => (.error e, d, s)
      | (.ok (hash, _), d, s) => next hash d s

/-- `Store::ingest_file_streaming` and `ingest_file_streaming_no_copy`. -/
def Store.ingestFileStreaming [FastCDC] (d : Disk) (s : Store) (path : Bytes) (noCopy : Bool) :
    Except StoreError (List ChunkRef × Nat) × Disk × Store :=
  let source := if noCopy then d.canonicalize path else none
  if noCopy ∧ source = none then (.error .io, d, s)
  else
    match d.sources.lookup path with
    | some (.file content) => s.ingestPieces d source (FastCDC.stream.pieces content) 0 []
    | _ => (.error .io, d, s)

/-- What the loop of `ingest_tree_files_impl` has built. -/
structure Ingesting where
  chunks : List ChunkRef
  entries : List FileEntry
  global : Nat

/-- The loop of `ingest_tree_files_impl`. -/
def Store.ingestDiskFiles [FastCDC] (d : Disk) (s : Store) (noCopy : Bool) :
    List (Text × Bytes) → Ingesting → Except StoreError Ingesting × Disk × Store
  | [], b => (.ok b, d, s)
  | (rel, path) :: rest, b =>
    match s.ingestFileStreaming d path noCopy with
    | (.error e, d, s) => (.error e, d, s)
    | (.ok (refs, size), d, s) =>
      Store.ingestDiskFiles d s noCopy rest
        { chunks := b.chunks ++ refs.map fun r =>
            ⟨r.hash, UInt64.ofNat b.global + r.offset, r.length⟩
          entries := b.entries ++ [⟨rel, UInt64.ofNat size, UInt64.ofNat b.chunks.length,
            UInt64.ofNat refs.length⟩]
          global := b.global + size }

/-- `Store::ingest_tree_files` and `ingest_tree_files_no_copy`. -/
def Store.ingestTreeFiles [FastCDC] (d : Disk) (s : Store) (files : List (Text × Bytes))
    (name : Option Text) (noCopy : Bool) : Except StoreError Manifest × Disk × Store :=
  match s.ingestDiskFiles d noCopy files ⟨[], [], 0⟩ with
  | (.error e, d, s) => (.error e, d, s)
  | (.ok b, d, s) =>
    (.ok ⟨merkleRoot (b.chunks.map ChunkRef.hash), UInt64.ofNat b.global, b.chunks, b.entries,
      name⟩, d, s)

/-! ## An ingest is a series of calls -/

/-- The calls on a handle that an ingest is made of, and the two queries. -/
inductive Prim where
  | put (bytes : Bytes)
  | has (h : Hash)
  | get (h : Hash)
  | addReference (h : Hash) (source : Bytes) (offset : UInt64) (length : UInt32)

/-- What a call leaves of the directory and the handle. -/
def Prim.run (d : Disk) (s : Store) : Prim → Disk × Store
  | .put bytes => (s.put d bytes).2
  | .has h => (d, (s.has d h).2)
  | .get h => (d, (s.get d h).2)
  | .addReference h source offset length => s.addReference d h source offset length

/-- Calls one after another. -/
def Prim.runAll (d : Disk) (s : Store) : List Prim → Disk × Store
  | [] => (d, s)
  | p :: ps => let (d, s) := p.run d s; Prim.runAll d s ps

theorem Prim.runAll_append {d : Disk} {s : Store} {ps qs : List Prim} :
    Prim.runAll d s (ps ++ qs) =
      Prim.runAll (Prim.runAll d s ps).1 (Prim.runAll d s ps).2 qs := by
  induction ps generalizing d s with
  | nil => rfl
  | cons p ps ih => exact ih

/-- The call is one that an ingest makes: a `put`, a `has`, or a reference into a source file that
is `P`. -/
def Prim.Ingests (P : Bytes → Prop) : Prim → Prop
  | .put _ | .has _ => True
  | .get _ => False
  | .addReference _ source _ _ => P source

/-- The state is what some calls of an ingest leave of another. -/
def IsSteps (P : Bytes → Prop) (before after : Disk × Store) : Prop :=
  ∃ ps : List Prim, Prim.runAll before.1 before.2 ps = after ∧ ∀ p ∈ ps, p.Ingests P

variable {P : Bytes → Prop}

theorem IsSteps.refl (a : Disk × Store) : IsSteps P a a := ⟨[], rfl, by simp⟩

theorem IsSteps.trans {a b c : Disk × Store} (h : IsSteps P a b) (h' : IsSteps P b c) :
    IsSteps P a c := by
  obtain ⟨ps, rfl, hps⟩ := h
  obtain ⟨qs, rfl, hqs⟩ := h'
  refine ⟨ps ++ qs, Prim.runAll_append, fun p hp => ?_⟩
  rcases List.mem_append.mp hp with hp | hp
  · exact hps p hp
  · exact hqs p hp

theorem IsSteps.put (d : Disk) (s : Store) (bytes : Bytes) :
    IsSteps P (d, s) (s.put d bytes).2 :=
  ⟨[.put bytes], rfl, fun _ hp => by rw [List.mem_singleton.mp hp]; trivial⟩

theorem putAll_isSteps {d : Disk} {s : Store} {chunks : List Bytes} :
    IsSteps P (d, s) (s.putAll d chunks).2 := by
  induction chunks generalizing d s with
  | nil => exact .refl _
  | cons bytes rest ih =>
    rw [Store.putAll]
    have hput : IsSteps P (d, s) _ := IsSteps.put d s bytes
    rcases hp : s.put d bytes with ⟨e | _, d', s'⟩
    · rwa [hp] at hput
    · rw [hp] at hput
      exact hput.trans ih

theorem ingest_isSteps [FastCDC] {d : Disk} {s : Store} {data : Bytes} {name : Option Text} :
    IsSteps P (d, s) (s.ingest d data name).2 := by
  have h : IsSteps P (d, s)
      (s.putAll d (chunkSlices data (Manifest.fromBytes data name).chunks)).2 := putAll_isSteps
  rw [Store.ingest]
  split <;> next hp => rwa [hp] at h

theorem ingestTree_isSteps [FastCDC] {d : Disk} {s : Store} {files : List (Text × Bytes)}
    {name : Option Text} : IsSteps P (d, s) (s.ingestTree d files name).2 := by
  have h : IsSteps P (d, s) (s.putAll d (treeSlices (Manifest.fromFiles files name) files)).2 :=
    putAll_isSteps
  rw [Store.ingestTree]
  split <;> next hp => rwa [hp] at h

theorem ingestPieces_isSteps {source : Option Bytes} (hok : ∀ src, source = some src → P src)
    {pieces : List Bytes} : ∀ {d : Disk} {s : Store} {offset : Nat} {refs : List ChunkRef},
    IsSteps P (d, s) (s.ingestPieces d source pieces offset refs).2 := by
  induction pieces with
  | nil => exact fun {d s _ _} => .refl (d, s)
  | cons data rest ih =>
    intro d s offset refs
    cases source with
    | some src =>
      refine IsSteps.trans (b := (s.has d (Hash.of data)).2.addReference d (Hash.of data) src
        (UInt64.ofNat offset) (UInt32.ofNat data.length)) ?_ ih
      refine ⟨[.has (Hash.of data), .addReference _ src _ _], rfl, fun p hp => ?_⟩
      simp only [List.mem_cons, List.not_mem_nil, or_false] at hp
      rcases hp with rfl | rfl
      · trivial
      · exact hok src rfl
    | none =>
      have hput : IsSteps P (d, s) _ := IsSteps.put d s data
      rw [Store.ingestPieces]
      rcases hp : s.put d data with ⟨e | ⟨hash, new⟩, d', s'⟩
      · rwa [hp] at hput
      · rw [hp] at hput
        exact hput.trans ih

theorem ingestFileStreaming_isSteps [FastCDC] {d : Disk} {s : Store} {path : Bytes} {noCopy : Bool}
    (hok : noCopy = true → ∀ src, d.canonicalize path = some src → P src) :
    IsSteps P (d, s) (s.ingestFileStreaming d path noCopy).2 := by
  unfold Store.ingestFileStreaming
  cases noCopy with
  | false =>
    simp only [Bool.false_eq_true, false_and, if_false]
    split
    · exact ingestPieces_isSteps fun _ hsrc => by cases hsrc
    · exact .refl _
  | true =>
    simp only [true_and, if_true]
    split
    · exact .refl _
    · split
      · exact ingestPieces_isSteps (hok rfl)
      · exact .refl _

/-- What lies outside the store directory is no business of the calls on a handle. -/
theorem Prim.run_outside (d : Disk) (s : Store) (p : Prim) :
    (p.run d s).1.sources = d.sources ∧ (p.run d s).1.canonicalize = d.canonicalize := by
  cases p with
  | put bytes =>
    obtain ⟨packs, tail, he, -⟩ := Store.put_disk d s bytes
    show (s.put d bytes).2.1.sources = _ ∧ (s.put d bytes).2.1.canonicalize = _
    rw [he]
    exact ⟨rfl, rfl⟩
  | has h => exact ⟨rfl, rfl⟩
  | get h => exact ⟨rfl, rfl⟩
  | addReference h source offset length => exact ⟨rfl, rfl⟩

theorem Prim.runAll_outside (ps : List Prim) : ∀ (d : Disk) (s : Store),
    (Prim.runAll d s ps).1.sources = d.sources ∧
      (Prim.runAll d s ps).1.canonicalize = d.canonicalize := by
  induction ps with
  | nil => exact fun _ _ => ⟨rfl, rfl⟩
  | cons p ps ih =>
    intro d s
    obtain ⟨hsources, hcanonicalize⟩ := Prim.run_outside d s p
    obtain ⟨hsources', hcanonicalize'⟩ := ih (p.run d s).1 (p.run d s).2
    exact ⟨hsources'.trans hsources, hcanonicalize'.trans hcanonicalize⟩

theorem IsSteps.outside {a b : Disk × Store} (h : IsSteps P a b) :
    b.1.sources = a.1.sources ∧ b.1.canonicalize = a.1.canonicalize := by
  obtain ⟨ps, rfl, -⟩ := h
  exact Prim.runAll_outside ps a.1 a.2

theorem ingestDiskFiles_isSteps [FastCDC] {noCopy : Bool} {files : List (Text × Bytes)} :
    ∀ {d : Disk} {s : Store} {b : Ingesting}, (noCopy = true → ∀ f ∈ files, ∀ src,
      d.canonicalize f.2 = some src → P src) →
    IsSteps P (d, s) (s.ingestDiskFiles d noCopy files b).2 := by
  induction files with
  | nil => exact fun {d s _} _ => .refl (d, s)
  | cons f rest ih =>
    intro d s b hok
    have hfile : IsSteps P (d, s) (s.ingestFileStreaming d f.2 noCopy).2 :=
      ingestFileStreaming_isSteps fun hn => hok hn f List.mem_cons_self
    rw [Store.ingestDiskFiles]
    rcases hf : s.ingestFileStreaming d f.2 noCopy with ⟨e | ⟨refs, size⟩, d', s'⟩
    · rwa [hf] at hfile
    · rw [hf] at hfile
      refine hfile.trans (ih fun hn g hg src hsrc => ?_)
      have hcanon : d'.canonicalize = d.canonicalize := hfile.outside.2
      rw [hcanon] at hsrc
      exact hok hn g (List.mem_cons_of_mem _ hg) src hsrc

theorem ingestTreeFiles_isSteps [FastCDC] {d : Disk} {s : Store} {files : List (Text × Bytes)}
    {name : Option Text} {noCopy : Bool} (hok : noCopy = true → ∀ f ∈ files, ∀ src,
      d.canonicalize f.2 = some src → P src) :
    IsSteps P (d, s) (s.ingestTreeFiles d files name noCopy).2 := by
  have h := ingestDiskFiles_isSteps (s := s) (b := ⟨[], [], 0⟩) hok
  rw [Store.ingestTreeFiles]
  split <;> next hp => rwa [hp] at h

end Np2ptp
