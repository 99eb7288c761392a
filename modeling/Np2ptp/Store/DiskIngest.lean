import Np2ptp.Store.IngestExport
import Np2ptp.Store.Packing

/-!
# A tree that was ingested from disk is there

`ingest_tree_files` in both of its forms: after it the handle has every piece of every file
(`ingestTreeFiles_has`), be it that the pieces were copied or that they are references into files
that stay as they are.
-/

namespace Np2ptp

open Lib

section

variable [Blake3] {d : Disk} {s : Store}

/-- Pieces that are copied. -/
theorem ingestPieces_copied_has : ∀ {pieces : List Bytes} {offset : Nat} {refs : List ChunkRef}
    {d : Disk} {s : Store}, d.Steady → s.Sound d → s.Noted d →
    (∃ r, (s.ingestPieces d none pieces offset refs).1 = .ok r) → ∀ p ∈ pieces,
      (s.ingestPieces d none pieces offset refs).2.2.Has
        (s.ingestPieces d none pieces offset refs).2.1 (Hash.of p)
  | [], _, _, _, _, _, _, _, _, p, hp => by cases hp
  | data :: rest, offset, refs, d, s, hd, hs, hn, hok, p, hp => by
    have hone : Retains (d, s) (s.put d data).2 :=
      Prim.Live.retains (p := .put data) trivial hd hs hn
    rw [Store.ingestPieces] at hok ⊢
    dsimp only at hok ⊢
    rcases hput : s.put d data with ⟨e | ⟨hash, new⟩, d', s'⟩
    · rw [hput] at hok
      obtain ⟨r, hr⟩ := hok
      cases hr
    · rw [hput] at hok hone
      have hrest : Retains (d', s') (s'.ingestPieces d' none rest (offset + data.length)
          (refs ++ [⟨hash, UInt64.ofNat offset, UInt32.ofNat data.length⟩])).2 :=
        (ingestPieces_isSteps (fun _ hsrc => by cases hsrc)).live.retains hone.disk hone.sound
          hone.noted
      rcases List.mem_cons.mp hp with rfl | hp
      · exact hrest.has _ (hone.sound.has_of_holds (Store.holds_of_put hput))
      · exact ingestPieces_copied_has hone.disk hone.sound hone.noted hok p hp

/-- Pieces that are referenced. -/
theorem ingestPieces_referenced_has {src content : Bytes} (hsafe : LineSafe src)
    (hsize : content.length ≤ MAX_FILE) : ∀ (pieces : List Bytes) (pre : Bytes) {d : Disk}
    {s : Store} {refs : List ChunkRef}, d.Steady → s.Sound d → s.Noted d →
    d.sources.lookup src = some (.file content) → content = pre ++ pieces.flatten →
    (∀ p ∈ pieces, p.length ≤ MAX_CHUNK) → ∀ p ∈ pieces,
      (s.ingestPieces d (some src) pieces pre.length refs).2.2.Has
        (s.ingestPieces d (some src) pieces pre.length refs).2.1 (Hash.of p)
  | [], _, _, _, _, _, _, _, _, _, _, p, hp => by cases hp
  | data :: rest, pre, d, s, refs, hd, hs, hn, hfile, hcontent, hle, p, hp => by
    rw [List.flatten_cons, ← List.append_assoc] at hcontent
    have hlive : d.RefLive (Hash.of data)
        ⟨src, UInt64.ofNat pre.length, UInt32.ofNat data.length⟩ :=
      Disk.refLive_of_file (hcontent ▸ hfile) (hcontent ▸ hsize) (hle data List.mem_cons_self)
    obtain ⟨d', s', hadd⟩ : ∃ d' s', (s.has d (Hash.of data)).2.addReference d (Hash.of data) src
        (UInt64.ofNat pre.length) (UInt32.ofNat data.length) = (d', s') := ⟨_, _, rfl⟩
    have hone : LiveSteps (d, s) (d', s') := by
      rw [← hadd]
      refine ⟨[.has (Hash.of data), .addReference _ src _ _], rfl, fun q hq => ?_⟩
      simp only [List.mem_cons, List.not_mem_nil, or_false] at hq
      rcases hq with rfl | rfl
      · trivial
      · exact ⟨hsafe, hlive⟩
    have hkeeps := hone.retains hd hs hn
    have hfile' : d'.sources.lookup src = some (.file content) := by
      rw [show d'.sources = d.sources from hone.outside.1]
      exact hfile
    have hnow : s'.Has d' (Hash.of data) := by
      have hrefs : s'.refs = (s.has d (Hash.of data)).2.refs.insert (Hash.of data)
          ⟨src, UInt64.ofNat pre.length, UInt32.ofNat data.length⟩ := by
        rw [← (Prod.mk.inj hadd).2]
      exact .inl (hrefs ▸ Finmap.mem_insert.mpr (.inl rfl))
    have hnext : s.ingestPieces d (some src) (data :: rest) pre.length refs =
        s'.ingestPieces d' (some src) rest (pre ++ data).length
          (refs ++ [⟨Hash.of data, UInt64.ofNat pre.length, UInt32.ofNat data.length⟩]) := by
      rw [Store.ingestPieces, List.length_append]
      dsimp only
      rw [hadd]
    have hlast : ∀ q ∈ rest, q.length ≤ MAX_CHUNK := fun q hq => hle q (List.mem_cons_of_mem _ hq)
    have hrest (refs : List ChunkRef) : Retains (d', s')
        (s'.ingestPieces d' (some src) rest (pre ++ data).length refs).2 :=
      (ingestPieces_live hsafe hsize rest (pre ++ data) hfile' hcontent hlast).retains
        hkeeps.disk hkeeps.sound hkeeps.noted
    rw [hnext]
    rcases List.mem_cons.mp hp with rfl | hp
    · exact (hrest _).has _ hnow
    · exact ingestPieces_referenced_has hsafe hsize rest (pre ++ data) hkeeps.disk hkeeps.sound
        hkeeps.noted hfile' hcontent hlast p hp

variable [FastCDC]

/-- A file that was ingested is there. -/
theorem ingestFileStreaming_has {path content : Bytes} {noCopy : Bool} (hd : d.Steady)
    (hs : s.Sound d) (hn : s.Noted d) (href : noCopy = true → d.Referable path)
    (hfile : d.sources.lookup path = some (.file content))
    (hok : ∃ r, (s.ingestFileStreaming d path noCopy).1 = .ok r) :
    ∀ p ∈ FastCDC.stream.pieces content, (s.ingestFileStreaming d path noCopy).2.2.Has
      (s.ingestFileStreaming d path noCopy).2.1 (Hash.of p) := by
  cases noCopy with
  | false =>
    have hcopy : s.ingestFileStreaming d path false =
        s.ingestPieces d none (FastCDC.stream.pieces content) 0 [] := by
      simp only [Store.ingestFileStreaming, hfile, Bool.false_eq_true, false_and, if_false]
    rw [hcopy] at hok ⊢
    exact ingestPieces_copied_has hd hs hn hok
  | true =>
    rcases hcanonicalize : d.canonicalize path with _ | src
    · obtain ⟨r, hr⟩ := hok
      simp [Store.ingestFileStreaming, hcanonicalize] at hr
    · have hreference : s.ingestFileStreaming d path true =
          s.ingestPieces d (some src) (FastCDC.stream.pieces content) 0 [] := by
        simp only [Store.ingestFileStreaming, hfile, hcanonicalize, true_and, if_true,
          reduceCtorEq, if_false]
      obtain ⟨hsafe, hsame, hsize⟩ := href rfl src hcanonicalize
      rw [hreference]
      exact ingestPieces_referenced_has hsafe (hsize content hfile) _ [] hd hs hn
        (hsame.trans hfile) (FastCDC.stream.flatten_pieces content).symm
        (FastCDC.stream.length_le content)

/-- The pieces of some files, cut as a reader cuts them. -/
def streamedPieces (files : List (Text × Bytes)) : List Bytes :=
  @treePieces FastCDC.streaming files

theorem ingestDiskFiles_has {noCopy : Bool} {onDisk : List (Text × Bytes)} :
    ∀ {d : Disk} {s : Store} {b : Ingesting} {files : List (Text × Bytes)}, d.Steady →
    s.Sound d → s.Noted d → (noCopy = true → ∀ f ∈ onDisk, d.Referable f.2) →
    d.Copies onDisk files → (∃ r, (s.ingestDiskFiles d noCopy onDisk b).1 = .ok r) →
    ∀ p ∈ streamedPieces files, (s.ingestDiskFiles d noCopy onDisk b).2.2.Has
      (s.ingestDiskFiles d noCopy onDisk b).2.1 (Hash.of p) := by
  induction onDisk with
  | nil =>
    intro d s b files hd hs hn _ hcopies _ p hp
    cases files with
    | nil => cases hp
    | cons f files => cases hcopies.1
  | cons f rest ih =>
    intro d s b files hd hs hn href hcopies hok p hp
    obtain ⟨content, files', rfl, hfile, hrest⟩ := Disk.copies_cons.mp hcopies
    have hlive : LiveSteps (d, s) (s.ingestFileStreaming d f.2 noCopy).2 :=
      ingestFileStreaming_live fun hnc => href hnc f List.mem_cons_self
    have hkeeps := hlive.retains hd hs hn
    have hhas := ingestFileStreaming_has hd hs hn (fun hnc => href hnc f List.mem_cons_self) hfile
    rw [Store.ingestDiskFiles] at hok ⊢
    rcases hf : s.ingestFileStreaming d f.2 noCopy with ⟨e | ⟨refs, size⟩, d', s'⟩
    · rw [hf] at hok
      obtain ⟨r, hr⟩ := hok
      cases hr
    · rw [hf] at hok hlive hkeeps hhas
      obtain ⟨hsources, hcanonicalize⟩ := hlive.outside
      have hsources : d'.sources = d.sources := hsources
      have href' : noCopy = true → ∀ g ∈ rest, d'.Referable g.2 := by
        intro hnc g hg src hsrc
        have hrefers := href hnc g (List.mem_cons_of_mem _ hg) src (hcanonicalize ▸ hsrc)
        exact ⟨hrefers.safe, hsources ▸ hrefers.same, hsources ▸ hrefers.size⟩
      have hrest' : d'.Copies rest files' := by
        rw [Disk.Copies, Disk.HasFiles, hsources]
        exact hrest
      have hmore (b : Ingesting) : Retains (d', s') (s'.ingestDiskFiles d' noCopy rest b).2 :=
        (ingestDiskFiles_live href').retains hkeeps.disk hkeeps.sound hkeeps.noted
      rcases List.mem_append.mp (show p ∈ FastCDC.stream.pieces content ++ streamedPieces files'
        from hp) with hp | hp
      · exact (hmore _).has _ (hhas ⟨_, rfl⟩ p hp)
      · exact ih hkeeps.disk hkeeps.sound hkeeps.noted href' hrest' hok p hp

/-- A tree that was ingested from disk is there. -/
theorem ingestTreeFiles_has {noCopy : Bool} {onDisk files : List (Text × Bytes)}
    {name : Option Text} {m : Manifest} (hd : d.Steady) (hs : s.Sound d) (hn : s.Noted d)
    (href : noCopy = true → ∀ f ∈ onDisk, d.Referable f.2) (hcopies : d.Copies onDisk files)
    (hok : (s.ingestTreeFiles d onDisk name noCopy).1 = .ok m) :
    ∀ p ∈ streamedPieces files, (s.ingestTreeFiles d onDisk name noCopy).2.2.Has
      (s.ingestTreeFiles d onDisk name noCopy).2.1 (Hash.of p) := by
  have hhas := ingestDiskFiles_has (b := ⟨[], [], 0⟩) hd hs hn href hcopies
  rw [Store.ingestTreeFiles] at hok ⊢
  rcases hr : s.ingestDiskFiles d noCopy onDisk ⟨[], [], 0⟩ with ⟨e | b, d', s'⟩
  · rw [hr] at hok
    cases hok
  · rw [hr] at hhas
    exact hhas ⟨_, rfl⟩

end

end Np2ptp
