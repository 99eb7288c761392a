import Np2ptp.Core.BuiltManifest
import Np2ptp.Core.PathLaws
import Np2ptp.Lib.Runs
import Np2ptp.Net.DownloadLaws
import Np2ptp.Store.ExportLaws
import Np2ptp.Store.History

/-!
# The content id determines the stream

A download checks the manifest against the content id once, and the exporter checks each chunk
against the manifest. Everything else comes from an adversary: the answers, their order, what lies
in the store. The chain from the exported bytes to the content id is then one of hashes alone, so
two streams under one content id differ only by a collision among strings that were hashed
(`download_multi_then_export`).
-/

namespace Np2ptp

open Lib

section

variable [Blake3]

/-! ## What the exporter writes -/

/-- The streaming export writes strings that hash to the listed chunks, in order. -/
theorem Store.exportChunks_ok {d : Disk} {m : Manifest} : ∀ {chunks : List ChunkRef} {i : Nat}
    {w w' : Bytes} {s s' : Store}, Store.exportChunks d m chunks i w s = (.ok (), w', s') →
    ∃ written : List Bytes, w' = w ++ written.flatten ∧
      written.map Hash.of = chunks.map ChunkRef.hash
  | [], _, _, _, _, _, h => by
    cases h
    exact ⟨[], by simp, rfl⟩
  | cref :: chunks, i, w, w', s, s', h => by
    rw [Store.exportChunks] at h
    split at h
    · cases h
    · cases h
    · next bytes s1 hget =>
      split at h
      · obtain ⟨written, rfl, hmap⟩ := Store.exportChunks_ok h
        exact ⟨bytes :: written, by simp, by simp [hmap, Store.hash_of_get hget]⟩
      · cases h

theorem Store.exportTo_ok {d : Disk} {m : Manifest} {w : Bytes} {s s' : Store}
    (h : Store.exportTo d s m = (.ok (), w, s')) :
    ∃ written : List Bytes, w = written.flatten ∧ written.map Hash.of = m.hashes := by
  rw [Store.exportTo] at h
  split at h
  · exact Store.exportChunks_ok h
  · cases h

/-! ## What the download returns -/

variable {Peer : Type}

/-- Every download that returns a manifest returns a vetted one. -/
theorem Download.result_vetted [DecidableEq Peer] {root : Hash} {providers : List Peer} {d : Disk}
    {s : Store} {answers : List Answered} {st : Download Peer} {m : Manifest}
    (hrun : runs (Download.step root providers) (Download.start providers d s) answers = some st)
    (hok : st.result = some (.ok m)) : m.Vetted root := by
  have hv : st.phase.Vetted root :=
    runs_invariant' (I := fun st : Download Peer => st.phase.Vetted root)
      Download.step_vetted (Download.start_vetted providers d s) hrun
  obtain ⟨receipts, hp⟩ := Download.phase_of_result hok
  rwa [hp] at hv

/-! ## The stream -/

variable [FastCDC]

/-- Strings that hash to the chunks of a manifest are the pieces of every tree with its root, or
two different strings that were hashed have one digest. -/
theorem eq_treePieces_or_collision {m : Manifest} {written : List Bytes}
    {files : List (Text × Bytes)} {name : Option Text}
    (hw : written.map Hash.of = m.hashes)
    (hroot : merkleRoot m.hashes = (Manifest.fromFiles files name).root) :
    written = treePieces files ∨
      Collision Hash.of (merkleStrings m.hashes ++ written)
        (merkleStrings (Manifest.fromFiles files name).hashes ++ treePieces files) := by
  rcases merkleRoot_inj (hroot.trans (Manifest.root_fromFiles files name)) with heq | hc
  · have hmap : written.map Hash.of = (treePieces files).map Hash.of := by
      rw [hw, heq, Manifest.hashes_fromFiles]
    rcases eq_or_collision_of_map_eq hmap with h | hc
    · exact .inl h
    · exact .inr (hc.mono (List.subset_append_right _ _) (List.subset_append_right _ _))
  · exact .inr (hc.mono (List.subset_append_left _ _) (List.subset_append_left _ _))

/-- The content id determines the stream. Whatever the providers answer and in whatever order,
whatever lay in the local store before and was done to it after: a download that succeeds and an
export that succeeds give the contents of every tree whose manifest has the content id, or two
different strings hashed on the way have one digest. -/
theorem download_multi_then_export [DecidableEq Peer] {root : Hash} {providers : List Peer}
    {d : Disk} {s : Store} {answers : List Answered} {st : Download Peer} {m : Manifest}
    (hrun : runs (Download.step root providers) (Download.start providers d s) answers = some st)
    (hok : st.result = some (.ok m))
    {d' : Disk} {s' s'' : Store} {w : Bytes} (hexport : Store.exportTo d' s' m = (.ok (), w, s''))
    {files : List (Text × Bytes)} {name : Option Text}
    (hroot : (Manifest.fromFiles files name).root = root) :
    ∃ written : List Bytes, w = written.flatten ∧ written.map Hash.of = m.hashes ∧
      (w = (files.map Prod.snd).flatten ∨
        Collision Hash.of (merkleStrings m.hashes ++ written)
          (merkleStrings (Manifest.fromFiles files name).hashes ++ treePieces files)) := by
  obtain ⟨hmroot, hcons, -⟩ := Download.result_vetted hrun hok
  obtain ⟨written, rfl, hmap⟩ := Store.exportTo_ok hexport
  have hsame : merkleRoot m.hashes = (Manifest.fromFiles files name).root := by
    rw [beq_iff_eq.mp hcons, hmroot, hroot]
  refine ⟨written, rfl, hmap, ?_⟩
  rcases eq_treePieces_or_collision hmap hsame with rfl | hc
  · exact .inl (flatten_treePieces files)
  · exact .inr hc

end

/-- The answers of an honest provider of the one-byte content `x`. -/
def answersOfX [Blake3] [FastCDC] : List Answered :=
  [.manifest (.ok (.manifest (some (Manifest.fromFiles [(dataPath, [120])] none).toNptp))),
    .chunk 0 (.ok (.chunk (some [120])))]

theorem getManifest_x :
    let _ := blake3OfX
    let _ := minFastCDC
    let m := Manifest.fromFiles [(dataPath, [120])] none
    getManifest rootOfX (.ok (.manifest (some m.toNptp))) = .ok m := by
  intro _ _ m
  refine toOption_eq_some.mp ?_
  decide +kernel

theorem result_of_x :
    let _ := blake3OfX
    let _ := minFastCDC
    let m := Manifest.fromFiles [(dataPath, [120])] none
    (runs (Download.step rootOfX [()]) (Download.start [()] (Disk.fresh ∅ ∅ some) Store.fresh)
      answersOfX).map (fun st => (st.result.bind Except.toOption,
        (Store.exportTo st.disk st.store m).1.toOption)) = some (some m, some ()) := by
  decide +kernel

/-- The answers for the three files: a wrong chunk is asked for again, and two chunks come before the
first. -/
def answersOfThree [Blake3] [FastCDC] : List Answered :=
  [.manifest (.ok (.manifest (some (Manifest.fromFiles filesOfThree none).toNptp))),
    .chunk 1 (.ok (.chunk (some [120]))), .chunk 2 (.ok (.chunk (some [121]))),
    .chunk 1 (.ok (.chunk (some [120, 120]))), .chunk 0 (.ok (.chunk (some [120])))]

theorem result_of_three :
    let _ := blake3OfThree
    let _ := minFastCDC
    let m := Manifest.fromFiles filesOfThree none
    (runs (Download.step rootOfThree [0, 1])
      (Download.start [0, 1] (Disk.fresh ∅ ∅ some) Store.fresh)
      answersOfThree).map (fun st => (st.result.bind Except.toOption,
        (Store.exportTo st.disk st.store m).1.toOption)) = some (some m, some ()) := by
  decide +kernel

/-- The three files, downloaded from two providers and exported. -/
theorem download_then_export_of_three :
    let _ := blake3OfThree
    let _ := minFastCDC
    let m := Manifest.fromFiles filesOfThree none
    ∃ st s' w,
      runs (Download.step rootOfThree [0, 1])
        (Download.start [0, 1] (Disk.fresh ∅ ∅ some) Store.fresh) answersOfThree = some st ∧
      Store.exportTo st.disk st.store m = (.ok (), w, s') ∧
      ∃ written : List Bytes, w = written.flatten ∧ written.map Hash.of = m.hashes ∧
        (w = [120, 120, 120, 121] ∨ Collision Hash.of (merkleStrings m.hashes ++ written)
          (merkleStrings m.hashes ++ treePieces filesOfThree)) := by
  let _ := blake3OfThree
  let _ := minFastCDC
  obtain ⟨st, hrun, hview⟩ := Option.map_eq_some_iff.mp result_of_three
  obtain ⟨hresult, hexport⟩ := Prod.mk.inj hview
  have hok := bind_toOption_eq_some.mp hresult
  rcases hx : Store.exportTo st.disk st.store (Manifest.fromFiles filesOfThree none)
    with ⟨_ | _, w, s'⟩
  · rw [hx] at hexport
    cases hexport
  · have hroot : (Manifest.fromFiles filesOfThree none).root = rootOfThree := by decide +kernel
    exact ⟨st, s', w, hrun, hx, download_multi_then_export hrun hok hx hroot⟩

end Np2ptp
