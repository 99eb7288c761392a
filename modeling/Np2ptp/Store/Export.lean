import Np2ptp.Core.Path
import Np2ptp.Store.Handle

/-!
# Exporting content from a store

`export`, `export_tree` and their streaming variants `export_to` and `export_tree_to_dir`. The
first two collect everything in memory through the manifest's own reconstruction; the last two walk
the manifest themselves and write each chunk as it is read. What is written is modelled as the bytes
handed to the writer, and the writer does not fail.
-/

namespace Np2ptp

open Lib

variable [Blake3]

/-- The closure that `export` and `export_tree` read chunks with: it keeps the last store error. -/
def Store.fetch (d : Disk) : Store × Option StoreError → Hash →
    Option Bytes × (Store × Option StoreError)
  | (s, storeErr), h =>
    match s.get d h with
    | (.ok opt, s) => (opt, (s, storeErr))
    | (.error e, s) => (none, (s, some e))

/-- What `export` and `export_tree` return: a store error that occurred, or else the result. -/
def finishExport {α : Type} :
    Except ManifestError α × (Store × Option StoreError) → Except StoreError α × Store
  | (_, (s, some e)) => (.error e, s)
  | (.error e, (s, none)) => (.error (.manifest e), s)
  | (.ok a, (s, none)) => (.ok a, s)

/-- `Store::export`. -/
def Store.export (d : Disk) (s : Store) (m : Manifest) : Except StoreError Bytes × Store :=
  finishExport (m.reconstruct (Store.fetch d) (s, none))

/-- `Store::export_tree`. -/
def Store.exportTree (d : Disk) (s : Store) (m : Manifest) :
    Except StoreError (List (Text × Bytes)) × Store :=
  finishExport (m.reconstructFiles (Store.fetch d) (s, none))

/-- The loop of `export_to`, from the chunk `i` on, `w` being written so far. -/
def Store.exportChunks (d : Disk) (m : Manifest) :
    List ChunkRef → Nat → Bytes → Store → Except StoreError Unit × Bytes × Store
  | [], _, w, s => (.ok (), w, s)
  | cref :: chunks, i, w, s =>
    match s.get d cref.hash with
    | (.error e, s) => (.error e, w, s)
    | (.ok none, s) => (.error (.missing cref.hash), w, s)
    | (.ok (some bytes), s) =>
      if m.chunkHashOk i bytes then Store.exportChunks d m chunks (i + 1) (w ++ bytes) s
      else (.error (.corrupt cref.hash), w, s)

/-- `Store::export_to`: the result and what was written. -/
def Store.exportTo (d : Disk) (s : Store) (m : Manifest) : Except StoreError Unit × Bytes × Store :=
  if m.rootIsConsistent then Store.exportChunks d m m.chunks 0 [] s
  else (.error (.corrupt m.root), [], s)

/-- How `export_tree_to_dir` ends: an addition of two `usize` may overflow. -/
inductive Outcome where
  | ok
  | err (e : StoreError)
  | overflow
  deriving DecidableEq

/-- The inner loop of `export_tree_to_dir`: `count` chunks from the index `ci` on. -/
def Store.exportRange (d : Disk) (m : Manifest) :
    Nat → Nat → Bytes → Store → Outcome × Bytes × Store
  | 0, _, w, s => (.ok, w, s)
  | count + 1, ci, w, s =>
    match m.chunks[ci]? with
    | none => (.err (.corrupt m.root), w, s)
    | some cref =>
      match s.get d cref.hash with
      | (.error e, s) => (.err e, w, s)
      | (.ok none, s) => (.err (.missing cref.hash), w, s)
      | (.ok (some bytes), s) =>
        if m.chunkHashOk ci bytes then Store.exportRange d m count (ci + 1) (w ++ bytes) s
        else (.err (.corrupt cref.hash), w, s)

/-- The outer loop of `export_tree_to_dir`. -/
def Store.exportFiles (d : Disk) (m : Manifest) :
    List FileEntry → List (Text × Bytes) → Store → Outcome × List (Text × Bytes) × Store
  | [], out, s => (.ok, out, s)
  | entry :: files, out, s =>
    match validateRelativePath entry.path.bytes with
    | .error _ => (.err (.unsafePath entry.path), out, s)
    | .ok () =>
      -- the file is created before its range is computed
      if 2 ^ 64 ≤ entry.chunkStart.toNat + entry.chunkCount.toNat then
        (.overflow, out ++ [(entry.path, [])], s)
      else
        match Store.exportRange d m entry.chunkCount.toNat entry.chunkStart.toNat [] s with
        | (.ok, w, s) => Store.exportFiles d m files (out ++ [(entry.path, w)]) s
        | (r, w, s) => (r, out ++ [(entry.path, w)], s)

/-- `Store::export_tree_to_dir`: how it ends and the files written, in order. -/
def Store.exportTreeToDir (d : Disk) (s : Store) (m : Manifest) :
    Outcome × List (Text × Bytes) × Store :=
  if m.rootIsConsistent then Store.exportFiles d m m.files [] s
  else (.err (.corrupt m.root), [], s)

end Np2ptp
