import Np2ptp.Store.Ingest

/-!
# Sound directories and handles

The invariant of calls that do not overlap. In a sound directory both sidecars are closed texts and
every index line names bytes of its hash (`Disk.Sound`); a sound handle has read each sidecar up to
its cursor, and holds no pack entry that the index does not list (`Store.Sound`). A call extends the
directory (`Disk.Extends`), which keeps every other handle sound, and leaves its own handle sound
(`Prim.run_sound`).
-/

namespace Np2ptp

open Lib

section

variable [Blake3]

/-- The bytes lie somewhere in a pack file. -/
def Disk.PacksHold (d : Disk) (bytes : Bytes) : Prop :=
  ∃ id content, d.packs.lookup id = some content ∧ bytes <:+: content

/-- The location names bytes of the hash. A chunk of 4 GiB or more is too long for the length field of
an index line: of its entry only this is left, that a pack file holds bytes of the hash. -/
def Disk.Packed (d : Disk) (h : Hash) (loc : PackLoc) : Prop :=
  (∃ bytes, d.readFromPack loc = some bytes ∧ Hash.of bytes = h) ∨
    ∃ bytes, 2 ^ 32 ≤ bytes.length ∧ Hash.of bytes = h ∧ d.PacksHold bytes

/-- The index has a line for the hash. -/
def Disk.Indexed (d : Disk) (h : Hash) : Prop := ∃ loc, (h, loc) ∈ packEntries d.index

/-- What calls that do not overlap keep true of a directory. -/
structure Disk.Sound (d : Disk) : Prop where
  indexText : validUtf8 d.index = true
  indexClosed : Terminated LF d.index
  refsText : validUtf8 d.refsTsv = true
  refsClosed : Terminated LF d.refsTsv
  packed : ∀ e ∈ packEntries d.index, d.Packed e.1 e.2
  /-- A chunk of the old layout is never packed again. -/
  once : ∀ e ∈ packEntries d.index, e.1 ∉ d.objects

/-- The chunks of the old layout are what their names say. -/
def Disk.ObjectsIntact (d : Disk) : Prop :=
  ∀ h bytes, d.objects.lookup h = some bytes → Hash.of bytes = h

/-- What they keep true of a handle. -/
structure Store.Sound (d : Disk) (s : Store) : Prop where
  index : Follows LF packEntry d.index s.packIndexPos (· ∈ s.packIndex)
  refs : Follows LF refEntry d.refsTsv s.refsPos (· ∈ s.refs)
  listed : ∀ h loc, s.packIndex.lookup h = some loc → (h, loc) ∈ packEntries d.index

/-- How a call changes a directory: pack files grow, and whole lines are added to the sidecars. -/
structure Disk.Extends (d d' : Disk) : Prop where
  packs : PacksGrow d.packs d'.packs
  index : ∃ t, d'.index = d.index ++ t ∧ Terminated LF t ∧ validUtf8 t = true ∧
    ∀ e ∈ packEntries t, d'.Packed e.1 e.2 ∧ e.1 ∉ d'.objects
  refs : ∃ t, d'.refsTsv = d.refsTsv ++ t ∧ Terminated LF t ∧ validUtf8 t = true
  objects : d'.objects = d.objects

end

/-! ## Pack files that grow keep what is read from them -/

theorem readAt_append {content more bytes : Bytes} {offset : UInt64} {length : UInt32}
    (h : readAt content offset length = some bytes) :
    readAt (content ++ more) offset length = some bytes := by
  unfold readAt at h ⊢
  split at h
  · cases h
  · next hmax =>
    rw [if_neg hmax]
    split at h
    · next hlen =>
      rw [if_pos (by rcases hlen with h0 | hle
                     · exact .inl h0
                     · right; simp only [List.length_append]; omega)]
      rcases hlen with h0 | hle
      · rw [h0] at h ⊢
        simpa using h
      · rw [← h, List.drop_append_of_le_length (by omega),
          List.take_append_of_le_length (by simp only [List.length_drop]; omega)]
    · cases h

/-- The bytes read are as many as asked for. -/
theorem length_of_readAt {content bytes : Bytes} {offset : UInt64} {length : UInt32}
    (h : readAt content offset length = some bytes) : bytes.length = length.toNat := by
  unfold readAt at h
  split at h
  · cases h
  · split at h
    · next hlen =>
      cases h
      rcases hlen with h0 | hle
      · simp [h0]
      · simp only [List.length_take, List.length_drop]
        omega
    · cases h

/-- What is read of a pack file lies in it. -/
theorem infix_of_readAt {content bytes : Bytes} {offset : UInt64} {length : UInt32}
    (h : readAt content offset length = some bytes) : bytes <:+: content := by
  unfold readAt at h
  split at h
  · cases h
  · split at h
    · cases h
      exact (List.take_prefix _ _).isInfix.trans (List.drop_suffix _ _).isInfix
    · cases h

/-- The bytes written at the end of a pack file are read back from there. -/
theorem readAt_written {old bytes more : Bytes} {offset : UInt64}
    (hoffset : offset.toNat = old.length) (hfit : old.length + bytes.length ≤ MAX_FILE)
    (hlen : bytes.length < 2 ^ 32) :
    readAt (old ++ bytes ++ more) offset (UInt32.ofNat bytes.length) = some bytes := by
  have hn : (UInt32.ofNat bytes.length).toNat = bytes.length := UInt32.toNat_ofNat_of_lt' hlen
  refine readAt_append ?_
  rw [readAt, if_neg (by omega), if_pos (by right; simp only [List.length_append]; omega), hn,
    hoffset, List.drop_left, List.take_length]

theorem PacksGrow.readFromPack {d d' : Disk} (h : PacksGrow d.packs d'.packs) {loc : PackLoc}
    {bytes : Bytes} (hr : d.readFromPack loc = some bytes) : d'.readFromPack loc = some bytes := by
  obtain ⟨content, hc, hb⟩ := Option.bind_eq_some_iff.mp hr
  obtain ⟨more, hm⟩ := h _ _ hc
  exact Option.bind_eq_some_iff.mpr ⟨_, hm, readAt_append hb⟩

section

variable [Blake3]

theorem PacksGrow.packed {d d' : Disk} (h : PacksGrow d.packs d'.packs) {g : Hash} {loc : PackLoc}
    (hp : d.Packed g loc) : d'.Packed g loc := by
  rcases hp with ⟨bytes, hr, hh⟩ | ⟨bytes, hlen, hh, id, content, hc, hin⟩
  · exact .inl ⟨bytes, h.readFromPack hr, hh⟩
  · obtain ⟨more, hm⟩ := h _ _ hc
    exact .inr ⟨bytes, hlen, hh, id, _, hm, hin.trans (List.prefix_append _ _).isInfix⟩

/-! ## Extensions keep directories and handles sound -/

/-- Pack files that grow, and nothing else. -/
theorem Disk.Extends.of_packs {d : Disk} {packs : HashMap UInt32 Bytes}
    (h : PacksGrow d.packs packs) : d.Extends { d with packs := packs } :=
  ⟨h, ⟨[], by simp, terminated_nil, rfl, by simp [entries, pieces]⟩,
    ⟨[], by simp, terminated_nil, rfl⟩, rfl⟩

theorem Disk.Extends.refl (d : Disk) : d.Extends d := .of_packs (.refl _)

theorem Disk.Sound.extend {d d' : Disk} (hd : d.Sound) (h : d.Extends d') : d'.Sound := by
  obtain ⟨t, ht, htc, htu, hte⟩ := h.index
  obtain ⟨u, hu, huc, huu⟩ := h.refs
  have hentries : packEntries d'.index = packEntries d.index ++ packEntries t := by
    rw [ht, packEntries_append hd.indexClosed]
  refine ⟨?_, ?_, ?_, ?_, ?_, ?_⟩
  · rw [ht, validUtf8_append hd.indexText htu]
  · rw [ht]; exact hd.indexClosed.append htc
  · rw [hu, validUtf8_append hd.refsText huu]
  · rw [hu]; exact hd.refsClosed.append huc
  · intro e he
    rw [hentries, List.mem_append] at he
    rcases he with he | he
    · exact h.packs.packed (hd.packed e he)
    · exact (hte e he).1
  · intro e he
    rw [hentries, List.mem_append] at he
    rcases he with he | he
    · rw [h.objects]; exact hd.once e he
    · exact (hte e he).2

/-- Other handles do not notice. -/
theorem Store.Sound.extend {d d' : Disk} {s : Store} (hd : d.Sound) (hs : s.Sound d)
    (h : d.Extends d') : s.Sound d' := by
  obtain ⟨t, ht, -⟩ := h.index
  obtain ⟨u, hu, -⟩ := h.refs
  refine ⟨?_, ?_, fun g loc hl => ?_⟩
  · rw [ht]; exact hs.index.append
  · rw [hu]; exact hs.refs.append
  · rw [ht, packEntries_append hd.indexClosed]
    exact List.mem_append_left _ (hs.listed g loc hl)

/-! ## Refreshing -/

/-- A refresh of a sound directory succeeds and takes in everything the index lists. -/
theorem Store.refreshPackIndex_eq {d : Disk} {s : Store} (hd : d.Sound) (hs : s.Sound d) :
    s.refreshPackIndex d = some { s with
      packIndex := insertAll s.packIndex (packEntries (d.index.drop s.packIndexPos))
      packIndexPos := d.index.length } := by
  have hsplit := List.take_append_drop s.packIndexPos d.index
  have htext := (validUtf8_of_closed_append hs.index.boundary (hsplit.symm ▸ hd.indexText)).2
  rw [Store.refreshPackIndex, refreshTail_eq htext
    (Terminated.of_append (hsplit.symm ▸ hd.indexClosed)) hs.index.le]
  rfl

theorem Store.refreshRefs_eq {d : Disk} {s : Store} (hd : d.Sound) (hs : s.Sound d) :
    s.refreshRefs d = some { s with
      refs := insertAll s.refs (refEntries (d.refsTsv.drop s.refsPos))
      refsPos := d.refsTsv.length } := by
  have hsplit := List.take_append_drop s.refsPos d.refsTsv
  have htext := (validUtf8_of_closed_append hs.refs.boundary (hsplit.symm ▸ hd.refsText)).2
  rw [Store.refreshRefs, refreshTail_eq htext
    (Terminated.of_append (hsplit.symm ▸ hd.refsClosed)) hs.refs.le]
  rfl

/-- The handle after a refresh of the index that cannot fail. -/
def Store.indexRead (d : Disk) (s : Store) : Store :=
  { s with
    packIndex := insertAll s.packIndex (packEntries (d.index.drop s.packIndexPos))
    packIndexPos := d.index.length }

/-- The handle after a refresh of the references that cannot fail. -/
def Store.refsRead (d : Disk) (s : Store) : Store :=
  { s with
    refs := insertAll s.refs (refEntries (d.refsTsv.drop s.refsPos))
    refsPos := d.refsTsv.length }

theorem Store.tryRefreshPackIndex_eq {d : Disk} {s : Store} (hd : d.Sound) (hs : s.Sound d) :
    s.tryRefreshPackIndex d = s.indexRead d := by
  rw [Store.tryRefreshPackIndex, Store.refreshPackIndex_eq hd hs]
  rfl

theorem Store.tryRefreshRefs_eq {d : Disk} {s : Store} (hd : d.Sound) (hs : s.Sound d) :
    s.tryRefreshRefs d = s.refsRead d := by
  rw [Store.tryRefreshRefs, Store.refreshRefs_eq hd hs]
  rfl

omit [Blake3] in
/-- The lines past the cursor are lines of the index. -/
theorem Store.Sound.mem_entries {d : Disk} {s : Store} (hs : s.Sound d) {e : Hash × PackLoc}
    (he : e ∈ packEntries (d.index.drop s.packIndexPos)) : e ∈ packEntries d.index := by
  have hsplit : packEntries d.index = _ := hs.index.entries_eq
  rw [hsplit]
  exact List.mem_append_right _ he

omit [Blake3] in
/-- After reading the index a handle knows every entry of it. -/
theorem Store.indexRead_mem {d : Disk} {s : Store} (hs : s.Sound d) (h : Hash) :
    h ∈ (s.indexRead d).packIndex ↔ h ∈ s.packIndex ∨ d.Indexed h := by
  rw [Store.indexRead, mem_insertAll]
  constructor
  · rintro (hm | ⟨loc, hm⟩)
    · exact .inl hm
    · exact .inr ⟨loc, hs.mem_entries hm⟩
  · rintro (hm | ⟨loc, hm⟩)
    · exact .inl hm
    · rw [packEntries, hs.index.entries_eq, List.mem_append] at hm
      rcases hm with hm | hm
      · exact .inl (hs.index.seen _ hm)
      · exact .inr ⟨loc, hm⟩

omit [Blake3] in
/-- A handle knows no pack entry that the index does not list. -/
theorem Store.Sound.indexed {d : Disk} {s : Store} (hs : s.Sound d) {h : Hash}
    (hm : h ∈ s.packIndex) : d.Indexed h := by
  obtain ⟨loc, hl⟩ := Finmap.mem_iff.mp hm
  exact ⟨loc, hs.listed h loc hl⟩

theorem Store.Sound.indexRead {d : Disk} {s : Store} (hd : d.Sound) (hs : s.Sound d) :
    (s.indexRead d).Sound d := by
  refine ⟨?_, hs.refs, fun h loc hl => ?_⟩
  · have hclosed : Terminated LF (d.index.drop s.packIndexPos) :=
      Terminated.of_append ((List.take_append_drop s.packIndexPos d.index).symm ▸ hd.indexClosed)
    have hfollow := (hs.index.mono fun h hm => (Store.indexRead_mem hs h).mpr (.inl hm)).advance
      (List.prefix_refl _) hclosed fun e he =>
        (Store.indexRead_mem hs e.1).mpr
          (.inr ⟨e.2, hs.mem_entries he⟩)
    have hlen : s.packIndexPos + (d.index.drop s.packIndexPos).length = d.index.length := by
      rw [List.length_drop]
      have := hs.index.le
      omega
    rwa [hlen] at hfollow
  · rcases lookup_insertAll hl with hl | hl
    · exact hs.listed h loc hl
    · exact hs.mem_entries hl

theorem Store.Sound.refsRead {d : Disk} {s : Store} (hd : d.Sound) (hs : s.Sound d) :
    (s.refsRead d).Sound d := by
  refine ⟨hs.index, ?_, hs.listed⟩
  have hclosed : Terminated LF (d.refsTsv.drop s.refsPos) :=
    Terminated.of_append ((List.take_append_drop s.refsPos d.refsTsv).symm ▸ hd.refsClosed)
  have hfollow := (hs.refs.mono (K := (· ∈ (s.refsRead d).refs)) fun h hm =>
      mem_insertAll.mpr (.inl hm)).advance (List.prefix_refl _) hclosed fun e he =>
        mem_insertAll.mpr (.inr ⟨e.2, he⟩)
  have hlen : s.refsPos + (d.refsTsv.drop s.refsPos).length = d.refsTsv.length := by
    rw [List.length_drop]
    have := hs.refs.le
    omega
  rwa [hlen] at hfollow

/-! ## Calls -/

/-- The handle as `put` leaves it on its second look at a sound directory. -/
theorem Store.recheck_eq {d : Disk} {s : Store} (hd : d.Sound) (hs : s.Sound d) :
    (s.tryRefreshPackIndex d).recheck d = ((s.indexRead d).indexRead d).refsRead d := by
  rw [Store.tryRefreshPackIndex_eq hd hs, Store.recheck,
    Store.tryRefreshPackIndex_eq hd (hs.indexRead hd),
    Store.tryRefreshRefs_eq hd ((hs.indexRead hd).indexRead hd)]

/-- A handle whose cursor stands at the end of the index may append a line of its own, pass it and
keep its entry. -/
theorem Store.Sound.append {d d' : Disk} {s : Store} {h : Hash} {loc : PackLoc} {p : PackState}
    (hd : d.Sound) (hs : s.Sound d) (hend : s.packIndexPos = d.index.length)
    (hindex : d'.index = d.index ++ packIndexLine h loc) (hrefs : d'.refsTsv = d.refsTsv) :
    Store.Sound d' { s with
      packState := p
      packIndex := s.packIndex.insert h loc
      packIndexPos := s.packIndexPos + (packIndexLine h loc).length } := by
  refine ⟨?_, ?_, fun g l hl => ?_⟩
  · rw [hindex]
    refine Follows.advance (Follows.append (hs.index.mono fun g hg => ?_)) ?_
      (packIndexLine_terminated h loc) ?_
    · exact Finmap.mem_insert.mpr (.inr hg)
    · rw [hend, List.drop_left]
    · intro e (he : e ∈ packEntries _)
      rw [packEntries_packIndexLine, List.mem_singleton] at he
      rw [he]
      exact Finmap.mem_insert.mpr (.inl rfl)
  · rw [hrefs]
    exact hs.refs
  · rw [hindex, packEntries_append hd.indexClosed, packEntries_packIndexLine, List.mem_append,
      List.mem_singleton]
    by_cases hg : g = h
    · subst hg
      rw [Finmap.lookup_insert, Option.some.injEq] at hl
      exact .inr (by rw [hl])
    · rw [Finmap.lookup_insert_of_ne _ hg] at hl
      exact .inl (hs.listed g l hl)

/-- A written chunk is where its line says, or too long for the line. -/
theorem Disk.packed_of_write {d d' : Disk} {p p' : PackState} {bytes : Bytes} {id : UInt32}
    {offset : UInt64} (h : p.write d bytes = (some (id, offset), p', d')) :
    d'.Packed (Hash.of bytes) ⟨id, offset, UInt32.ofNat bytes.length⟩ := by
  obtain ⟨packs, old, rfl, -, hl, hoffset, hfit⟩ := PackState.write_ok h
  by_cases hlen : bytes.length < 2 ^ 32
  · refine .inl ⟨bytes, ?_, rfl⟩
    have hr : readAt (old ++ bytes ++ []) offset _ = some bytes := readAt_written hoffset hfit hlen
    rw [List.append_nil] at hr
    exact Option.bind_eq_some_iff.mpr ⟨_, hl, hr⟩
  · exact .inr ⟨bytes, Nat.not_lt.mp hlen, rfl, id, _, hl, (List.suffix_append _ _).isInfix⟩

/-- A `put` extends a sound directory and leaves a sound handle. -/
theorem Store.put_sound {d : Disk} {s : Store} (hd : d.Sound) (hs : s.Sound d) (bytes : Bytes) :
    d.Extends (s.put d bytes).2.1 ∧ (s.put d bytes).2.2.Sound (s.put d bytes).2.1 := by
  have hs1 : ((s.tryRefreshPackIndex d).recheck d).Sound d := by
    rw [Store.recheck_eq hd hs]
    exact ((hs.indexRead hd).indexRead hd).refsRead hd
  have hend : ((s.tryRefreshPackIndex d).recheck d).packIndexPos = d.index.length := by
    rw [Store.recheck_eq hd hs]
    rfl
  rcases Store.put_cases d s bytes with ⟨-, he⟩ | ⟨-, -, he⟩ | ⟨-, -, ⟨-, he⟩ | ⟨hno, h⟩⟩
  · rw [he]
    exact ⟨.refl d, hs⟩
  · rw [he, Store.tryRefreshPackIndex_eq hd hs]
    exact ⟨.refl d, hs.indexRead hd⟩
  · rw [he]
    exact ⟨.refl d, hs1⟩
  · rcases h with ⟨p, d', hw, he⟩ | ⟨id, offset, p, d', hw, he⟩
    · obtain ⟨packs, rfl, hgrow⟩ := PackState.write_disk hw
      rw [he]
      exact ⟨.of_packs hgrow, hs1.index, hs1.refs, hs1.listed⟩
    · have hpacked := Disk.packed_of_write hw
      obtain ⟨packs, rfl, hgrow⟩ := PackState.write_disk hw
      rw [he]
      refine ⟨⟨hgrow, ⟨_, rfl, packIndexLine_terminated _ _, validUtf8_packIndexLine _ _, ?_⟩,
        ⟨[], by simp, terminated_nil, rfl⟩, rfl⟩, hs1.append hd hend rfl rfl⟩
      intro e he
      rw [packEntries_packIndexLine, List.mem_singleton] at he
      rw [he]
      refine ⟨hpacked, fun hm => ?_⟩
      simp only [Store.holds, Bool.or_eq_false_iff, decide_eq_false_iff_not] at hno
      exact hno.1.2 hm

/-- `get` leaves the handle alone or has read the index. -/
theorem Store.get_handle {d : Disk} {s : Store} (hd : d.Sound) (hs : s.Sound d) (h : Hash) :
    (s.get d h).2 = s ∨ (s.get d h).2 = s.indexRead d := by
  unfold Store.get
  split
  · exact .inl rfl
  · exact .inl rfl
  · split
    · exact .inl rfl
    · exact .inl rfl
    · split
      · exact .inl rfl
      · exact .inl rfl
      · rw [Store.refreshPackIndex_eq hd hs]
        exact .inr rfl

/-- Every call extends a sound directory and leaves its own handle sound. -/
theorem Prim.run_sound {d : Disk} {s : Store} (hd : d.Sound) (hs : s.Sound d) (p : Prim) :
    d.Extends (p.run d s).1 ∧ (p.run d s).2.Sound (p.run d s).1 := by
  cases p with
  | put bytes => exact Store.put_sound hd hs bytes
  | has h =>
    refine ⟨.refl d, ?_⟩
    rcases Store.has_cases d s h with ⟨-, he⟩ | ⟨-, he⟩
    · simp only [Prim.run, he]
      exact hs
    · simp only [Prim.run, he, Store.tryRefreshPackIndex_eq hd hs]
      exact hs.indexRead hd
  | get h =>
    refine ⟨.refl d, ?_⟩
    rcases Store.get_handle hd hs h with he | he
    · simp only [Prim.run, he]
      exact hs
    · simp only [Prim.run, he]
      exact hs.indexRead hd
  | addReference h source offset length =>
    refine ⟨⟨.refl _, ⟨[], by simp [Prim.run, Store.addReference], terminated_nil, rfl,
      by simp [entries, pieces]⟩, ⟨_, rfl, refLine_terminated _ _ _ _,
      validUtf8_refLine _ _ _ _⟩, rfl⟩, ⟨hs.index, ?_, hs.listed⟩⟩
    exact (hs.refs.mono (K := (· ∈ s.refs.insert h _)) fun g hg =>
      Finmap.mem_insert.mpr (.inr hg)).append

end

end Np2ptp
