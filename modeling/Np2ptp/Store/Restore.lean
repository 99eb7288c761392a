import Np2ptp.Store.OutputDir
import Np2ptp.Store.ReadBack
import Np2ptp.Store.Whole

/-!
# Writing files out

A whole handle that has the pieces of some files reads them back in order (`Store.Whole.fetched`),
so both exporters write the files: the one to a single file (`Store.Whole.exportTo_eq`), the other
into a directory where they find their places (`Store.Whole.exportTreeInto_eq`).
-/

namespace Np2ptp

open Lib

section

variable [Blake3] {d : Disk} {s : Store} {m : Manifest}

/-- The pieces are read in order. -/
theorem Store.Whole.fetched : ∀ {pieces : List Bytes} {s : Store}, s.Whole d →
    (∀ p ∈ pieces, s.Has d (Hash.of p)) → (∀ p ∈ pieces, d.NoCollision p) →
    Fetched (Store.read d) s (pieces.map Hash.of) pieces
  | [], _, _, _, _ => trivial
  | p :: pieces, s, hw, hhas, hnc => by
    have hkept := hw.get (Hash.of p)
    obtain ⟨bytes, hread⟩ := hw.reads (hhas p List.mem_cons_self)
    rcases hg : s.get d (Hash.of p) with ⟨r, s'⟩
    rw [hg] at hread hkept
    obtain rfl : r = .ok (some bytes) := hread
    obtain rfl : bytes = p :=
      hnc p List.mem_cons_self bytes (Store.stores_of_get (by rw [hg])) (Store.hash_of_get hg)
    have hone : Store.read d s (Hash.of bytes) = (some bytes, s') :=
      Store.read_eq_some_iff.mpr hg
    refine ⟨by rw [hone], ?_⟩
    rw [hone]
    exact Store.Whole.fetched hkept.whole
      (fun q hq => hkept.has _ (hhas q (List.mem_cons_of_mem _ hq)))
      fun q hq => hnc q (List.mem_cons_of_mem _ hq)

/-- What is read is written. -/
theorem Store.exportChunks_of_fetched : ∀ {chunks : List ChunkRef} {pieces : List Bytes} {i : Nat}
    {w : Bytes} {s : Store}, m.chunks.drop i = chunks →
    Fetched (Store.read d) s (chunks.map ChunkRef.hash) pieces →
    ∃ s', Store.exportChunks d m chunks i w s = (.ok (), w ++ pieces.flatten, s')
  | [], [], _, w, s, _, _ => ⟨s, by simp [Store.exportChunks]⟩
  | [], _ :: _, _, _, _, _, h => absurd h id
  | _ :: _, [], _, _, _, _, h => absurd h id
  | cref :: chunks, p :: pieces, i, w, s, hdrop, h => by
    have hc : m.chunks[i]? = some cref := by
      rw [← List.head?_drop, hdrop]
      rfl
    have hrest : m.chunks.drop (i + 1) = chunks := by
      rw [← List.tail_drop, hdrop]
      rfl
    have hget := Store.read_fst_iff.mp h.1
    have hok : m.chunkHashOk i p = true := by
      rw [Manifest.chunkHashOk, hc]
      exact beq_iff_eq.mpr (Store.hash_of_get hget)
    obtain ⟨s', hs'⟩ := Store.exportChunks_of_fetched (w := w ++ p) hrest h.2
    refine ⟨s', ?_⟩
    rw [Store.exportChunks, hget]
    dsimp only
    rw [if_pos hok, hs', List.flatten_cons, List.append_assoc]

variable [FastCDC] {files : List (Text × Bytes)}

/-- The single file that is written holds what the files hold. -/
theorem Store.Whole.exportTo_eq (hw : s.Whole d) (hm : m.Covers files)
    (hhas : ∀ p ∈ treePieces files, s.Has d (Hash.of p))
    (hnc : ∀ p ∈ treePieces files, d.NoCollision p) :
    ∃ s', Store.exportTo d s m = (.ok (), treeBytes files, s') := by
  have hread : Fetched (Store.read d) s (m.chunks.map ChunkRef.hash) (treePieces files) := by
    show Fetched (Store.read d) s m.hashes _
    rw [hm.hashes]
    exact hw.fetched hhas hnc
  obtain ⟨s', hs'⟩ := Store.exportChunks_of_fetched (w := []) (List.drop_zero) hread
  rw [flatten_treePieces] at hs'
  exact ⟨s', by rw [Store.exportTo, if_pos hm.consistent, hs']; rfl⟩

variable {refuses : List Bytes → Bool}

omit [FastCDC] in
/-- Files that are written without a directory and land are written into it. -/
theorem Store.exportFilesInto_of_land {entries : List FileEntry} : ∀ {acc out : List (Text × Bytes)}
    {s s' : Store} {t t' : OutputTree},
    Store.exportFiles d m entries acc s = (.ok, acc ++ out, s') →
    landAll refuses t out = (true, t') →
    Store.exportFilesInto refuses d m entries t s = (.ok, t', s') := by
  induction entries with
  | nil =>
    intro acc out s s' t t' h hland
    rw [Store.exportFiles] at h
    obtain ⟨-, hout, rfl⟩ : Outcome.ok = Outcome.ok ∧ acc = acc ++ out ∧ s = s' := by
      simpa using h
    obtain rfl : out = [] := by simpa using hout
    cases hland
    rfl
  | cons entry entries ih =>
    intro acc out s s' t t' h hland
    have hpath : validateRelativePath entry.path.bytes = .ok () := by
      rw [Store.exportFiles] at h
      split at h
      · cases h
      · next hpath => exact hpath
    rcases hentry : Store.exportEntry d m entry s with ⟨r, w, s1⟩
    rw [Store.exportFiles_cons hpath entries acc hentry] at h
    split at h
    · next hr =>
      subst hr
      obtain ⟨more, rfl⟩ : ∃ more, out = (entry.path, w) :: more := by
        obtain ⟨_, more, s2, hfiles, -⟩ := @Store.exportFilesInto_spec _ refuses d m entries
          (acc ++ [(entry.path, w)]) t s1
        rw [h] at hfiles
        have hout := congrArg (·.2.1) hfiles
        refine ⟨more, ?_⟩
        simpa using hout
      have hrest : Store.exportFiles d m entries (acc ++ [(entry.path, w)]) s1 =
          (.ok, (acc ++ [(entry.path, w)]) ++ more, s') := by
        rw [h, List.append_cons]
      rw [landAll] at hland
      rw [Store.exportFilesInto, hpath]
      dsimp only
      rw [hentry]
      dsimp only
      rcases hl : land refuses t entry.path.bytes w with ⟨_ | _, t1⟩
      · rw [hl] at hland
        cases hland
      · rw [hl] at hland
        dsimp only at hland ⊢
        rw [if_pos rfl]
        exact ih hrest hland
    · next hr =>
      have hr' := congrArg (·.1) h
      exact absurd hr' hr

/-- The directory that is written holds the files, where they find their places in it. -/
theorem Store.Whole.exportTreeInto_eq (hw : s.Whole d) (hm : m.Covers files)
    (hcounts : m.CountsChunks files) (hpaths : ∀ entry ∈ m.files, entry.PathOk)
    (hhas : ∀ p ∈ treePieces files, s.Has d (Hash.of p))
    (hnc : ∀ p ∈ treePieces files, d.NoCollision p) {t t' : OutputTree}
    (hland : landAll refuses t files = (true, t')) :
    ∃ s', s.exportTreeInto refuses d m t = (.ok, t', s') := by
  obtain ⟨s', hdir⟩ := (hm.exportTreeToDir_iff hnc).mpr
    ⟨hpaths, hw.fetched hhas hnc, hcounts⟩
  rw [Store.exportTreeToDir, if_pos hm.consistent, ← List.nil_append files] at hdir
  refine ⟨s', ?_⟩
  rw [Store.exportTreeInto, if_pos hm.consistent]
  exact Store.exportFilesInto_of_land hdir hland

end

end Np2ptp
