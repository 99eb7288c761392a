import Np2ptp.Store.Crash

/-!
# References that survive a reopen

A reference is kept twice: in the map of the handle, with the path as it is, and as a line of
`refs.tsv`, with the text of the path as its last field. `load_refs` cuts the file into lines before
it looks at any field, so what comes back is the reference only where the path is text, has no line
feed and does not end with a carriage return (`LineSafe`). Handles whose paths are all of that
kind find their map again when the store is opened anew, and no others do (`reopen_refs_iff`).
-/

namespace Np2ptp

open Lib

/-! ## Any line -/

/-- A path that ends with a carriage return is read back without it. -/
theorem dropLast_ne_of_getLast? {path : Bytes} {b : UInt8} (h : path.getLast? = some b) :
    path.dropLast ≠ path := by
  obtain ⟨t, rfl⟩ := List.getLast?_eq_some_iff.mp h
  intro he
  simpa using congrArg List.length he

/-- The pieces of a closed text are texts. -/
theorem validUtf8_of_mem_pieces {s p : Bytes} (hs : Terminated LF s) (hvalid : validUtf8 s = true)
    (hp : p ∈ pieces LF s) : validUtf8 p = true := by
  obtain ⟨before, after, hsplit⟩ := List.append_of_mem hp
  have hclosed : ∀ qs : List Bytes, (∀ q ∈ qs, q ∈ pieces LF s) → Terminated LF qs.flatten := by
    intro qs
    induction qs with
    | nil => exact fun _ => terminated_nil
    | cons q qs ih =>
      intro hqs
      obtain ⟨l, -, rfl⟩ := eq_concat_of_mem_pieces hs (hqs q List.mem_cons_self)
      rw [List.flatten_cons]
      exact (terminated_concat.mpr rfl).append (ih fun r hr => hqs r (List.mem_cons_of_mem _ hr))
  have hflat : (pieces LF s).flatten = s := flatten_pieces s
  rw [hsplit, List.flatten_append, List.flatten_cons] at hflat
  rw [← hflat] at hvalid
  have hrest := (validUtf8_of_closed_append (hclosed before fun q hq => by
    rw [hsplit]; exact List.mem_append_left _ hq) hvalid).2
  have hterminated : Terminated LF p := by
    obtain ⟨l, -, rfl⟩ := eq_concat_of_mem_pieces hs hp
    exact terminated_concat.mpr rfl
  exact (validUtf8_of_closed_append hterminated hrest).1

/-- A line that parses ends with its path, behind a tab. -/
theorem exists_fields_of_parseRefLine {line : Bytes} {e : Hash × RefLoc}
    (h : parseRefLine line = some e) : ∃ fields, line = fields ++ TAB :: e.2.path := by
  unfold parseRefLine at h
  split at h
  · next hash offset length path hsplit =>
    split at h
    · cases h
      obtain ⟨r₁, rfl, -, h₁⟩ := splitN_sound hsplit (by simp)
      obtain ⟨r₂, rfl, -, h₂⟩ := splitN_sound h₁ (by simp)
      obtain ⟨r₃, rfl, -, h₃⟩ := splitN_sound h₂ (by simp)
      obtain rfl : r₃ = path := (List.cons.inj h₃).1
      refine ⟨hash ++ TAB :: (offset ++ TAB :: length), ?_⟩
      simp
    · cases h
  · cases h

/-- What is read from a log has paths that are texts without line feeds. -/
theorem path_of_mem_refEntries {s : Bytes} (hs : Terminated LF s) (hvalid : validUtf8 s = true)
    {e : Hash × RefLoc} (he : e ∈ refEntries s) :
    validUtf8 e.2.path = true ∧ LF ∉ e.2.path := by
  obtain ⟨p, hp, hparse⟩ := List.mem_filterMap.mp he
  have hpvalid := validUtf8_of_mem_pieces hs hvalid hp
  obtain ⟨l, hl, rfl⟩ := eq_concat_of_mem_pieces hs hp
  have hlvalid := (validUtf8_of_append_line (by decide : LF < 128) hpvalid).1
  have hstrip : ∃ line, stripLineEnd (l ++ [LF]) = line ∧ validUtf8 line = true ∧ LF ∉ line := by
    refine ⟨_, rfl, ?_⟩
    rw [stripLineEnd, List.getLast?_concat, if_pos rfl, List.dropLast_concat]
    split
    · next hcr =>
      obtain ⟨t, rfl⟩ := List.getLast?_eq_some_iff.mp hcr
      rw [List.dropLast_concat]
      exact ⟨(validUtf8_of_append_line (by decide : CR < 128) hlvalid).1,
        fun hm => hl (List.mem_append_left _ hm)⟩
    · exact ⟨hlvalid, hl⟩
  obtain ⟨line, hline, hvalid, hLF⟩ := hstrip
  rw [refEntry, hline] at hparse
  obtain ⟨fields, rfl⟩ := exists_fields_of_parseRefLine hparse
  exact ⟨(validUtf8_of_append_line (by decide : TAB < 128) hvalid).2,
    fun hm => hLF (List.mem_append_right _ (List.mem_cons_of_mem _ hm))⟩

/-- One line is read back as what it was written for if and only if the path is safe. -/
theorem refEntries_refLine_iff {h : Hash} {path : Bytes} {offset : UInt64} {length : UInt32} :
    refEntries (refLine h path offset length) = [(h, ⟨path, offset, length⟩)] ↔
      LineSafe path := by
  constructor
  · intro hline
    obtain ⟨hvalid, hLF⟩ := path_of_mem_refEntries (refLine_terminated h path offset length)
      (validUtf8_refLine h path offset length) (hline ▸ List.mem_singleton_self _)
    refine ⟨hvalid, hLF, fun hCR => ?_⟩
    rw [refEntries_of_valid h offset length hvalid hLF, if_pos hCR, List.cons.injEq, Prod.mk.injEq,
      RefLoc.mk.injEq] at hline
    exact dropLast_ne_of_getLast? hCR hline.1.2.1
  · exact fun hp => refEntries_refLine hp h offset length

/-! ## The whole log -/

/-- The handle has in memory what it would load. -/
structure Store.RefsLogged (d : Disk) (s : Store) : Prop where
  text : validUtf8 d.refsTsv = true
  closed : Terminated LF d.refsTsv
  refs : s.refs = insertAll ∅ (refEntries d.refsTsv)

/-- `add_reference` for some references in order. -/
def Store.addReferences (d : Disk) (s : Store) : List (Hash × RefLoc) → Disk × Store
  | [] => (d, s)
  | (h, loc) :: calls =>
    let (d, s) := s.addReference d h loc.path loc.offset loc.length
    Store.addReferences d s calls

theorem Store.addReferences_concat (calls : List (Hash × RefLoc)) (c : Hash × RefLoc) :
    ∀ (d : Disk) (s : Store), Store.addReferences d s (calls ++ [c]) =
      (Store.addReferences d s calls).2.addReference (Store.addReferences d s calls).1 c.1 c.2.path
        c.2.offset c.2.length := by
  induction calls with
  | nil => exact fun _ _ => rfl
  | cons b calls ih => exact fun d s => ih _ _

/-- A reference more is a line more. -/
theorem Store.RefsLogged.text_append {d : Disk} {s : Store} (hl : s.RefsLogged d) (h : Hash)
    (path : Bytes) (offset : UInt64) (length : UInt32) :
    validUtf8 (d.refsTsv ++ refLine h path offset length) = true ∧
      Terminated LF (d.refsTsv ++ refLine h path offset length) ∧
      refEntries (d.refsTsv ++ refLine h path offset length) =
        refEntries d.refsTsv ++ refEntries (refLine h path offset length) :=
  ⟨validUtf8_append hl.text (validUtf8_refLine _ _ _ _),
    hl.closed.append (refLine_terminated _ _ _ _), refEntries_append hl.closed⟩

/-- One call keeps the log and the map the same if and only if the path is safe. -/
theorem Store.RefsLogged.addReference_iff {d : Disk} {s : Store} (hl : s.RefsLogged d) (h : Hash)
    (path : Bytes) (offset : UInt64) (length : UInt32) :
    (s.addReference d h path offset length).2.RefsLogged
      (s.addReference d h path offset length).1 ↔ LineSafe path := by
  obtain ⟨htext, hclosed, hentries⟩ := hl.text_append h path offset length
  constructor
  · rintro ⟨-, -, hrefs⟩
    have hrefs : s.refs.insert h ⟨path, offset, length⟩ =
        insertAll ∅ (refEntries (d.refsTsv ++ refLine h path offset length)) := hrefs
    have hlook : (insertAll ∅ (refEntries (d.refsTsv ++ refLine h path offset length))).lookup h =
        some ⟨path, offset, length⟩ := by
      rw [← hrefs]
      exact Finmap.lookup_insert _
    have hmem : (h, (⟨path, offset, length⟩ : RefLoc)) ∈
        refEntries (d.refsTsv ++ refLine h path offset length) := by
      rcases lookup_insertAll hlook with hnone | hmem
      · simp at hnone
      · exact hmem
    obtain ⟨hvalid, hLF⟩ := path_of_mem_refEntries hclosed htext hmem
    refine ⟨hvalid, hLF, fun hCR => ?_⟩
    -- the line alone is read as a shorter path, and it comes last
    rw [hentries, refEntries_of_valid h offset length hvalid hLF, if_pos hCR, insertAll_concat,
      Finmap.lookup_insert, Option.some.injEq, RefLoc.mk.injEq] at hlook
    exact dropLast_ne_of_getLast? hCR hlook.1
  · intro hpath
    refine ⟨htext, hclosed, ?_⟩
    show s.refs.insert h ⟨path, offset, length⟩ = insertAll ∅ (refEntries (_ ++ _))
    rw [hentries, refEntries_refLine hpath _ _ _, insertAll_concat, hl.refs]

/-- An opened directory has closed texts for sidecars, and the handle has loaded them and stands at
their ends. -/
theorem Store.open_loads {d₀ d : Disk} {s : Store} (h : Store.open d₀ = (.ok s, d)) :
    validUtf8 d.index = true ∧ Terminated LF d.index ∧ validUtf8 d.refsTsv = true ∧
      Terminated LF d.refsTsv ∧ ∃ d₁, d = (PackState.open d₁).2 ∧
        s = ⟨insertAll ∅ (refEntries d.refsTsv), insertAll ∅ (packEntries d.index),
          d.index.length, d.refsTsv.length, (PackState.open d₁).1⟩ := by
  have htruncate : ∀ {log whole : Bytes}, truncatePartialLine log = some whole →
      Terminated LF whole := by
    intro log whole h
    unfold truncatePartialLine at h
    split at h
    · cases h
      exact complete_terminated _
    · cases h
  unfold Store.open at h
  split at h
  · cases h
  · next index hindex =>
    dsimp only at h
    split at h
    · cases h
    · next refsTsv hrefs =>
      split at h
      · next packIndex packIndexPos refs refsPos hloadIndex hloadRefs =>
        cases h
        unfold loadLog at hloadIndex hloadRefs
        split at hloadIndex
        · next hindexText =>
          split at hloadRefs
          · next hrefsText =>
            cases hloadIndex
            cases hloadRefs
            exact ⟨hindexText, htruncate hindex, hrefsText, htruncate hrefs, _, rfl, rfl⟩
          · cases hloadRefs
        · cases hloadIndex
      · cases h

/-- An opened directory can be opened again, and the handle has what it would load. -/
theorem Store.open_ok {d₀ d : Disk} {s : Store} (h : Store.open d₀ = (.ok s, d)) :
    validUtf8 d.index = true ∧ Terminated LF d.index ∧ s.RefsLogged d := by
  obtain ⟨hindexText, hindexClosed, hrefsText, hrefsClosed, d₁, -, rfl⟩ := Store.open_loads h
  exact ⟨hindexText, hindexClosed, hrefsText, hrefsClosed, rfl⟩

/-- A reopened store has the references of the handle if and only if the handle has in memory what
is logged. -/
theorem Store.reopen_iff {d : Disk} {s : Store} (hindexText : validUtf8 d.index = true)
    (hindexClosed : Terminated LF d.index) (hrefsText : validUtf8 d.refsTsv = true)
    (hrefsClosed : Terminated LF d.refsTsv) :
    (∃ s' d', Store.open d = (.ok s', d') ∧ s'.refs = s.refs) ↔ s.RefsLogged d := by
  rw [Store.open_eq hindexText hindexClosed hrefsText hrefsClosed]
  constructor
  · rintro ⟨s', d', he, hrefs⟩
    cases he
    exact ⟨hrefsText, hrefsClosed, hrefs.symm⟩
  · rintro ⟨-, -, hrefs⟩
    exact ⟨_, _, rfl, hrefs.symm⟩

/-- Some calls leave closed texts. -/
theorem Store.addReferences_texts {d : Disk} {s : Store} (hrefsText : validUtf8 d.refsTsv = true)
    (hrefsClosed : Terminated LF d.refsTsv) (calls : List (Hash × RefLoc)) :
    (Store.addReferences d s calls).1.index = d.index ∧
      validUtf8 (Store.addReferences d s calls).1.refsTsv = true ∧
      Terminated LF (Store.addReferences d s calls).1.refsTsv := by
  induction calls generalizing d s with
  | nil => exact ⟨rfl, hrefsText, hrefsClosed⟩
  | cons c calls ih =>
    exact ih (validUtf8_append hrefsText (validUtf8_refLine _ _ _ _))
      (hrefsClosed.append (refLine_terminated _ _ _ _))

/-- Calls with safe paths are read back as a whole. -/
theorem Store.RefsLogged.addReferences {calls : List (Hash × RefLoc)}
    (hcalls : ∀ c ∈ calls, LineSafe c.2.path) : ∀ {d : Disk} {s : Store}, s.RefsLogged d →
    (Store.addReferences d s calls).2.RefsLogged (Store.addReferences d s calls).1 ∧
      refEntries (Store.addReferences d s calls).1.refsTsv = refEntries d.refsTsv ++ calls := by
  induction calls with
  | nil => exact fun hl => ⟨hl, (List.append_nil _).symm⟩
  | cons c calls ih =>
    intro d s hl
    have hpath := hcalls c List.mem_cons_self
    obtain ⟨hlogged, hentries⟩ := ih (fun b hb => hcalls b (List.mem_cons_of_mem _ hb))
      ((hl.addReference_iff c.1 c.2.path c.2.offset c.2.length).mpr hpath)
    refine ⟨hlogged, hentries.trans ?_⟩
    show refEntries (d.refsTsv ++ refLine _ _ _ _) ++ calls = _
    rw [refEntries_append hl.closed, refEntries_refLine hpath _ _ _, List.append_assoc]
    rfl

/-- No-copy references survive a reopen after each of some calls of `add_reference` on an opened
store if and only if every path is safe. Then the whole log is what was in it and the
references that were added, in order; and a line of its own is read back for just these paths. -/
theorem reopen_refs_iff {d₀ d : Disk} {s : Store} (hopen : Store.open d₀ = (.ok s, d))
    (calls : List (Hash × RefLoc)) :
    ((∀ pre, pre <+: calls → ∃ s' d', Store.open (Store.addReferences d s pre).1 = (.ok s', d') ∧
        s'.refs = (Store.addReferences d s pre).2.refs) ↔ ∀ c ∈ calls, LineSafe c.2.path) ∧
      ((∀ c ∈ calls, LineSafe c.2.path) →
        refEntries (Store.addReferences d s calls).1.refsTsv = refEntries d.refsTsv ++ calls ∧
        (Store.addReferences d s calls).2.refs =
          insertAll ∅ (refEntries d.refsTsv ++ calls)) ∧
      ∀ c ∈ calls, refEntries (refLine c.1 c.2.path c.2.offset c.2.length) = [c] ↔
        LineSafe c.2.path := by
  obtain ⟨hindexText, hindexClosed, hl⟩ := Store.open_ok hopen
  have hiff : ∀ pre : List (Hash × RefLoc),
      (∃ s' d', Store.open (Store.addReferences d s pre).1 = (.ok s', d') ∧
        s'.refs = (Store.addReferences d s pre).2.refs) ↔
      (Store.addReferences d s pre).2.RefsLogged (Store.addReferences d s pre).1 := by
    intro pre
    obtain ⟨hindex, htext, hclosed⟩ := Store.addReferences_texts (s := s) hl.text hl.closed pre
    exact Store.reopen_iff (hindex ▸ hindexText) (hindex ▸ hindexClosed) htext hclosed
  constructor
  · constructor
    · intro h c hc
      obtain ⟨before, after, rfl⟩ := List.append_of_mem hc
      have hbefore := (hiff before).mp (h before (List.prefix_append _ _))
      have hafter := (hiff (before ++ [c])).mp (h _ (by simp))
      rw [Store.addReferences_concat] at hafter
      exact (hbefore.addReference_iff _ _ _ _).mp hafter
    · intro h pre hpre
      exact (hiff pre).mpr (hl.addReferences fun c hc => h c (hpre.subset hc)).1
  · refine ⟨fun h => ?_, fun c _ => refEntries_refLine_iff⟩
    obtain ⟨hlogged, hentries⟩ := hl.addReferences h
    exact ⟨hentries, by rw [hlogged.refs, hentries]⟩

/-- The empty directory once the first pack file was created. -/
def openedDisk : Disk := { Disk.fresh ∅ ∅ some with packs := Finmap.singleton 0 [] }

theorem open_empty : Store.open (Disk.fresh ∅ ∅ some) = (.ok Store.fresh, openedDisk) := by
  rfl

/-- A reference into the file `/a` is there again after a reopen. -/
theorem reopen_finds_a :
    ∃ s' d', Store.open (Store.addReferences openedDisk Store.fresh
        [(digestOfX, ⟨ascii "/a", 0, 1⟩)]).1 = (.ok s', d') ∧
      s'.refs.lookup digestOfX = some ⟨ascii "/a", 0, 1⟩ := by
  have hsafe : ∀ c ∈ [((digestOfX : Hash), (⟨ascii "/a", 0, 1⟩ : RefLoc))],
      LineSafe c.2.path := by
    intro c hc
    rw [List.mem_singleton.mp hc]
    exact ⟨by decide, by decide, by decide⟩
  obtain ⟨s', d', ho, hrefs⟩ := (reopen_refs_iff open_empty _).1.mpr hsafe _ (List.prefix_refl _)
  exact ⟨s', d', ho, by rw [hrefs]; decide⟩

/-- A reference is lost: the path `/a⏎b` comes back as `/a`. -/
theorem reopen_cuts_path :
    ((Store.open (Store.addReferences openedDisk Store.fresh
        [(digestOfX, ⟨ascii "/a\nb", 0, 1⟩)]).1).1.toOption.map fun s => s.refs.lookup digestOfX) =
      some (some ⟨ascii "/a", 0, 1⟩) ∧
    (Store.addReferences openedDisk Store.fresh
        [(digestOfX, ⟨ascii "/a\nb", 0, 1⟩)]).2.refs.lookup digestOfX =
      some ⟨ascii "/a\nb", 0, 1⟩ := by
  decide +kernel

end Np2ptp
