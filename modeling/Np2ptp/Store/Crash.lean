import Np2ptp.Store.History

/-!
# Opening after a crash

A crash may leave any part of the line that was being appended. Opening trims what is not a whole
line and loads the rest, so the maps are the entries of the lines that were complete, and what is
appended afterwards starts a line of its own (`open_after_crash_iff`). The one case in which opening
fails is a cut inside a character of a source path, since the sidecars are read as text before the
torn tail is trimmed.
-/

namespace Np2ptp

open Lib

/-! ## Source paths that a line can hold -/

/-- The path is text without a line break. -/
structure LineSafe (path : Bytes) : Prop where
  text : validUtf8 path = true
  noBreak : LF ∉ path
  noReturn : path.getLast? ≠ some CR

/-- A reference that the call adds has a path that a line can hold. -/
def Prim.LineSafe : Prim → Prop
  | .addReference _ source _ _ => Np2ptp.LineSafe source
  | _ => True

/-- The line of a reference into such a path is read as the reference. -/
theorem refEntries_refLine {path : Bytes} (hp : LineSafe path) (h : Hash) (offset : UInt64)
    (length : UInt32) :
    refEntries (refLine h path offset length) = [(h, ⟨path, offset, length⟩)] := by
  rw [refEntries_of_valid h offset length hp.text hp.noBreak, if_neg hp.noReturn]

section

variable [Blake3]

/-! ## What a call appends -/

/-- The entries of the lines that a call appends to the two sidecars. -/
def Prim.appended (d : Disk) (s : Store) : Prim → List (Hash × PackLoc) × List (Hash × RefLoc)
  | .put bytes =>
    match s.put d bytes with
    | (.ok (h, true), _, s) => ((s.packIndex.lookup h).toList.map fun loc => (h, loc), [])
    | _ => ([], [])
  | .addReference h source offset length => ([], [(h, ⟨source, offset, length⟩)])
  | _ => ([], [])

/-- A call adds the entries it says to the sidecars, and none other. What it adds to the index is
ASCII. -/
theorem Prim.run_appended {d : Disk} {s : Store} (hd : d.Sound) {p : Prim} (hp : p.LineSafe) :
    packEntries (p.run d s).1.index = packEntries d.index ++ (p.appended d s).1 ∧
      refEntries (p.run d s).1.refsTsv = refEntries d.refsTsv ++ (p.appended d s).2 ∧
      ∃ t, (p.run d s).1.index = d.index ++ t ∧ ∀ b ∈ t, b < 128 := by
  have hsame : packEntries d.index = packEntries d.index ++ [] ∧
      refEntries d.refsTsv = refEntries d.refsTsv ++ [] ∧
      ∃ t, d.index = d.index ++ t ∧ ∀ b ∈ t, b < 128 := ⟨by simp, by simp, [], by simp, by simp⟩
  cases p with
  | put bytes =>
    rcases Store.put_cases d s bytes with ⟨-, he⟩ | ⟨-, -, he⟩ | ⟨-, -, ⟨-, he⟩ | ⟨-, h⟩⟩
    · simp only [Prim.run, Prim.appended, he]; exact hsame
    · simp only [Prim.run, Prim.appended, he]; exact hsame
    · simp only [Prim.run, Prim.appended, he]; exact hsame
    · rcases h with ⟨q, d', hw, he⟩ | ⟨id, offset, q, d', hw, he⟩
      · obtain ⟨packs, rfl, -⟩ := PackState.write_disk hw
        simp only [Prim.run, Prim.appended, he]; exact hsame
      · obtain ⟨packs, rfl, -⟩ := PackState.write_disk hw
        simp only [Prim.run, Prim.appended, he, Finmap.lookup_insert]
        refine ⟨?_, by simp, _, rfl, packIndexLine_ascii _ _⟩
        rw [packEntries_append hd.indexClosed, packEntries_packIndexLine]
        rfl
  | has h => exact hsame
  | get h => exact hsame
  | addReference h source offset length =>
    refine ⟨by simp [Prim.run, Store.addReference, Prim.appended], ?_, [],
      by simp [Prim.run, Store.addReference], by simp⟩
    show refEntries (d.refsTsv ++ refLine h source offset length) = _
    rw [refEntries_append hd.refsClosed, refEntries_refLine hp]
    rfl

/-! ## Opening a directory whose sidecars end with a torn line -/

omit [Blake3] in
/-- Opening trims the torn lines and then opens what is left. -/
theorem Store.open_torn {d : Disk} (hindex : validUtf8 d.index = true)
    (hrefs : validUtf8 d.refsTsv = true) : Store.open d =
      Store.open { d with index := complete LF d.index, refsTsv := complete LF d.refsTsv } := by
  have htext : ∀ {t : Bytes}, validUtf8 t = true → validUtf8 (complete LF t) = true := by
    intro t ht
    have hsplit : complete LF t ++ torn LF t = t := complete_append_torn t
    exact (validUtf8_of_closed_append (complete_terminated t) (hsplit.symm ▸ ht)).1
  simp only [Store.open, truncatePartialLine, if_pos hindex, if_pos hrefs, if_pos (htext hindex),
    if_pos (htext hrefs), (complete_terminated _).complete_eq]

omit [Blake3] in
/-- Opening fails where `refs.tsv` is not text. -/
theorem Store.open_notText {d : Disk} (hrefs : validUtf8 d.refsTsv = false) :
    ∃ e d', Store.open d = (.error e, d') := by
  rw [Store.open]
  split
  · exact ⟨_, _, rfl⟩
  · simp only [truncatePartialLine, hrefs, Bool.false_eq_true, if_false]
    exact ⟨_, _, rfl⟩

/-- A sound directory whose sidecars are cut between two lines is sound. -/
theorem Disk.Sound.cut {d : Disk} (hd : d.Sound) {index refsTsv : Bytes} (hi : index <+: d.index)
    (hr : refsTsv <+: d.refsTsv) (hic : Terminated LF index) (hrc : Terminated LF refsTsv) :
    Disk.Sound { d with index := index, refsTsv := refsTsv } := by
  obtain ⟨t, ht⟩ := hi
  obtain ⟨u, hu⟩ := hr
  have hmem : ∀ e ∈ packEntries index, e ∈ packEntries d.index := fun e he => by
    rw [← ht, packEntries_append hic]
    exact List.mem_append_left _ he
  exact ⟨(validUtf8_of_closed_append hic (ht ▸ hd.indexText)).1, hic,
    (validUtf8_of_closed_append hrc (hu ▸ hd.refsText)).1, hrc,
    fun e he => hd.packed e (hmem e he), fun e he => hd.once e (hmem e he)⟩

/-! ## Histories that reopen -/

/-- A call on the handle, or closing it and opening the directory again. -/
inductive Act where
  | call (p : Prim)
  | reopen

/-- One of these, `none` where the directory does not open. -/
def Act.step : Disk × Store → Act → Option (Disk × Store)
  | (d, s), .call p => some (p.run d s)
  | (d, _), .reopen =>
    match Store.open d with
    | (.ok s, d) => some (d, s)
    | (.error _, _) => none

/-- The entries of the lines that a history appends. -/
def Act.appended : Disk × Store → List Act → List (Hash × PackLoc) × List (Hash × RefLoc)
  | _, [] => ([], [])
  | (d, s), a :: as =>
    let now := match a with
      | .call p => p.appended d s
      | .reopen => ([], [])
    match Act.step (d, s) a with
    | none => now
    | some c =>
      let later := Act.appended c as
      (now.1 ++ later.1, now.2 ++ later.2)

/-- The reference that the act adds has a path that a line can hold. -/
def Act.LineSafe : Act → Prop
  | .call p => p.LineSafe
  | .reopen => True

/-- A history with reopenings goes through, and the sidecars then list what they listed before and
what was appended. -/
theorem Act.runs_sound : ∀ {as : List Act} {d : Disk} {s : Store}, d.Sound → s.Sound d →
    (∀ a ∈ as, a.LineSafe) → ∃ d' s', runs Act.step (d, s) as = some (d', s') ∧ d'.Sound ∧
      packEntries d'.index = packEntries d.index ++ (Act.appended (d, s) as).1 ∧
      refEntries d'.refsTsv = refEntries d.refsTsv ++ (Act.appended (d, s) as).2
  | [], d, s, hd, _, _ => ⟨d, s, rfl, hd, by simp [Act.appended], by simp [Act.appended]⟩
  | .call p :: as, d, s, hd, hs, hsafe => by
    obtain ⟨hext, hown⟩ := Prim.run_sound hd hs p
    obtain ⟨hpacks, hrefs, -⟩ := Prim.run_appended (s := s) hd (hsafe _ List.mem_cons_self)
    obtain ⟨d', s', hrun, hd', hp', hr'⟩ := Act.runs_sound (hd.extend hext) hown
      fun a ha => hsafe a (List.mem_cons_of_mem _ ha)
    refine ⟨d', s', hrun, hd', ?_, ?_⟩
    · rw [hp', hpacks, List.append_assoc]
      rfl
    · rw [hr', hrefs, List.append_assoc]
      rfl
  | .reopen :: as, d, s, hd, hs, hsafe => by
    obtain ⟨t, d1, hopen, hpacks, hext, ht, -⟩ := Store.open_sound hd
    obtain ⟨d', s', hrun, hd', hp', hr'⟩ := Act.runs_sound (hd.extend hext) ht
      fun a ha => hsafe a (List.mem_cons_of_mem _ ha)
    have hsame : d1.index = d.index ∧ d1.refsTsv = d.refsTsv := by
      rw [hpacks]
      exact ⟨rfl, rfl⟩
    refine ⟨d', s', ?_, hd', ?_, ?_⟩
    · rw [runs, Act.step, hopen]
      exact hrun
    · rw [hp', hsame.1]
      simp [Act.appended, Act.step, hopen]
    · rw [hr', hsame.2]
      simp [Act.appended, Act.step, hopen]

/-- What a store is to be after a crash: it opens; its maps are the entries of the whole lines that
the crash left; and after any further history, in which it may be opened again and again, it opens
with these entries and those appended since, each of which names bytes of its hash (short of chunks
of 4 GiB or more, whose entries have no true length). -/
def Disk.Survives (d : Disk) : Prop :=
  let packsBefore := packEntries (complete LF d.index)
  let refsBefore := refEntries (complete LF d.refsTsv)
  ∃ s d1, Store.open d = (.ok s, d1) ∧ s.packIndex = insertAll ∅ packsBefore ∧
    s.refs = insertAll ∅ refsBefore ∧
    ∀ as : List Act, (∀ a ∈ as, a.LineSafe) → ∃ d2 s2, runs Act.step (d1, s) as = some (d2, s2) ∧
      ∃ s3 d3, Store.open d2 = (.ok s3, d3) ∧
        s3.packIndex = insertAll ∅ (packsBefore ++ (Act.appended (d1, s) as).1) ∧
        s3.refs = insertAll ∅ (refsBefore ++ (Act.appended (d1, s) as).2) ∧
        ∀ e ∈ (Act.appended (d1, s) as).1, d3.Packed e.1 e.2

/-- A directory whose references are not text does not open. -/
theorem Disk.not_survives {d : Disk} (hrefs : validUtf8 d.refsTsv = false) : ¬ d.Survives := by
  rintro ⟨s, d1, hopen, -⟩
  obtain ⟨e, d', he⟩ := Store.open_notText hrefs
  rw [he] at hopen
  cases hopen

/-- A sound directory that a crash cut within the last line of either sidecar survives if and only
if the references are still text. -/
theorem Disk.Sound.survives_cut_iff {d : Disk} (hd : d.Sound) {index refsTsv : Bytes}
    (hi : index <+: d.index) (hr : refsTsv <+: d.refsTsv) (htext : validUtf8 index = true) :
    Disk.Survives { d with index := index, refsTsv := refsTsv } ↔ validUtf8 refsTsv = true := by
  constructor
  · intro hsurvives
    by_contra hno
    exact Disk.not_survives (d := { d with index := index, refsTsv := refsTsv })
      (Bool.not_eq_true _ ▸ hno) hsurvives
  · intro hrtext
    have hci : complete LF index <+: index :=
      ⟨torn LF index, complete_append_torn index⟩
    have hcr : complete LF refsTsv <+: refsTsv :=
      ⟨torn LF refsTsv, complete_append_torn refsTsv⟩
    have hcut := hd.cut (hci.trans hi) (hcr.trans hr) (complete_terminated index)
      (complete_terminated refsTsv)
    obtain ⟨s, d1, hopen, hpacks, hext, hs, hp, hrefs⟩ := Store.open_sound hcut
    refine ⟨s, d1, ?_, hp, hrefs, fun as hsafe => ?_⟩
    · rw [Store.open_torn htext hrtext]
      exact hopen
    · obtain ⟨d2, s2, hrun, hd2, hp2, hr2⟩ := Act.runs_sound (hcut.extend hext) hs hsafe
      obtain ⟨s3, d3, hopen3, hpacks3, hext3, -, hp3, hr3⟩ := Store.open_sound hd2
      have hidx : packEntries d1.index = packEntries (complete LF index) := by rw [hpacks]
      have hrfs : refEntries d1.refsTsv = refEntries (complete LF refsTsv) := by rw [hpacks]
      refine ⟨d2, s2, hrun, s3, d3, hopen3, ?_, ?_, fun e he => ?_⟩
      · rw [hp3, hp2, hidx]
      · rw [hr3, hr2, hrfs]
      · refine hext3.packs.packed (hd2.packed e ?_)
        rw [hp2]
        exact List.mem_append_right _ he

/-- A store survives a crash at any byte of its last append if and only if the part of the line that
was written is text: for every history of calls on one handle and every part `t` of the index line
or `u` of the reference line that the last call appends. -/
theorem open_after_crash_iff {objects : HashMap Hash Bytes} {sources : HashMap Bytes Source}
    {canonicalize : Bytes → Option Bytes} {d0 d : Disk} {s0 s : Store} {ps : List Prim} {p : Prim}
    {t u : Bytes} (hopen : Store.open (Disk.fresh objects sources canonicalize) = (.ok s0, d0))
    (hrun : Prim.runAll d0 s0 ps = (d, s)) (hsafe : p.LineSafe)
    (ht : d.index ++ t <+: (p.run d s).1.index)
    (hu : d.refsTsv ++ u <+: (p.run d s).1.refsTsv) :
    Disk.Survives { (p.run d s).1 with index := d.index ++ t, refsTsv := d.refsTsv ++ u } ↔
      validUtf8 u = true := by
  have hfresh : (Disk.fresh objects sources canonicalize).Sound :=
    ⟨rfl, terminated_nil, rfl, terminated_nil, by simp [Disk.fresh, entries, pieces],
      by simp [Disk.fresh, entries, pieces]⟩
  obtain ⟨s0', d0', hopen', -, hext, hs0, -⟩ := Store.open_sound hfresh
  rw [hopen] at hopen'
  cases hopen'
  obtain ⟨hd, hs, -⟩ := Prim.runAll_sound ps (hfresh.extend hext) hs0
  rw [hrun] at hd hs
  obtain ⟨hext', -⟩ := Prim.run_sound hd hs p
  obtain ⟨-, -, line, hline, hascii⟩ := Prim.run_appended (s := s) hd hsafe
  have htext : validUtf8 (d.index ++ t) = true := by
    refine validUtf8_append hd.indexText (validUtf8_of_ascii fun b hb => ?_)
    rw [hline, List.prefix_append_right_inj] at ht
    exact hascii b (ht.subset hb)
  rw [(hd.extend hext').survives_cut_iff ht hu htext, validUtf8_append_of_valid hd.refsText]

end

/-- The reference to the first byte of `/é`. -/
def referenceToE : Prim := .addReference digestOfX [47, 0xC3, 0xA9] 0 1

/-- A crash between two characters of the path leaves a directory that opens. -/
theorem open_after_crash_before_character :
    let _ := blake3OfX
    ∃ s d, Store.open (Disk.fresh ∅ ∅ some) = (.ok s, d) ∧ Disk.Survives
      { (referenceToE.run d s).1 with
        index := d.index ++ []
        refsTsv := d.refsTsv ++ (refLine digestOfX [47, 0xC3, 0xA9] 0 1).take 70 } := by
  let _ := blake3OfX
  refine ⟨_, _, rfl, (@open_after_crash_iff _ ∅ ∅ some _ _ _ _ [] referenceToE _ _ rfl rfl
    ⟨by decide, by decide, by decide⟩ ?_ ?_).mpr ?_⟩
  · exact List.prefix_rfl
  · exact List.take_prefix _ _
  · decide

/-- One byte later it does not: the first half of the character is on the disk. -/
theorem open_after_crash_in_character :
    let _ := blake3OfX
    LineSafe [47, 0xC3, 0xA9] ∧
    ∃ s d, Store.open (Disk.fresh ∅ ∅ some) = (.ok s, d) ∧
      d.refsTsv ++ (refLine digestOfX [47, 0xC3, 0xA9] 0 1).take 71 <+:
        (referenceToE.run d s).1.refsTsv ∧
      ¬ Disk.Survives
        { (referenceToE.run d s).1 with
          index := d.index
          refsTsv := d.refsTsv ++ (refLine digestOfX [47, 0xC3, 0xA9] 0 1).take 71 } := by
  let _ := blake3OfX
  refine ⟨⟨by decide, by decide, by decide⟩, _, _, rfl, List.take_prefix _ _, ?_⟩
  refine Disk.not_survives ?_
  decide

end Np2ptp
