import Np2ptp.Store.FaultyPut
import Np2ptp.Store.Lookup

/-!
# Puts that fail half-way

A session is one `put` after another on one handle, any of which may fail after any part of what it
writes. The chunks whose `put` returned are found, by the handle and after a reopening, as long as
every `put` that writes finds the index at a line boundary and has a chunk whose length fits the
line (`failed_appends_iff`). Behind a line that was cut a chunk is in the map of the handle and
nowhere else.
-/

namespace Np2ptp

open Lib

section

variable [Blake3] {d : Disk} {s : Store}

/-! ## Sessions -/

/-- A handle on its directory, and the chunks whose `put` has returned. -/
structure PutSession where
  disk : Disk
  store : Store
  returned : List Bytes

/-- A `put`, and where an I/O error strikes it. -/
structure Attempt where
  bytes : Bytes
  fault : Option Fault

/-- One `put` after another. -/
def PutSession.step (c : PutSession) (a : Attempt) : Option PutSession :=
  let (r, disk, store) := c.store.faultyPut c.disk a.bytes a.fault
  some ⟨disk, store, c.returned ++ if r.isOk then [a.bytes] else []⟩

/-- The chunk is found by the handle, and after the directory is opened again. -/
def PutSession.Retrievable (c : PutSession) (bytes : Bytes) : Prop :=
  (c.store.get c.disk (Hash.of bytes)).1 = .ok (some bytes) ∧
    ∃ s d, Store.open c.disk = (.ok s, d) ∧ (s.get d (Hash.of bytes)).1 = .ok (some bytes)

/-- A `put` that writes finds the index at a line boundary. One that returns has a chunk whose
length fits an index line, or one of the old layout. -/
structure PutSession.Safe (c : PutSession) (a : Attempt) : Prop where
  boundary : a.fault = none → ¬ c.store.Finds c.disk (Hash.of a.bytes) →
    c.store.packState.HasRoom c.disk a.bytes → Terminated LF c.disk.index
  short : c.store.Finds c.disk (Hash.of a.bytes) ∨
      (a.fault = none ∧ c.store.packState.HasRoom c.disk a.bytes) →
    Hash.of a.bytes ∈ c.disk.objects ∨ a.bytes.length < 2 ^ 32

instance (c : PutSession) (a : Attempt) : Decidable (c.store.Finds c.disk (Hash.of a.bytes)) :=
  inferInstanceAs (Decidable (_ = true))

instance (c : PutSession) (a : Attempt) : Decidable (c.Safe a) :=
  decidable_of_iff ((a.fault = none → ¬ c.store.Finds c.disk (Hash.of a.bytes) →
      c.store.packState.HasRoom c.disk a.bytes → Terminated LF c.disk.index) ∧
    (c.store.Finds c.disk (Hash.of a.bytes) ∨
        (a.fault = none ∧ c.store.packState.HasRoom c.disk a.bytes) →
      Hash.of a.bytes ∈ c.disk.objects ∨ a.bytes.length < 2 ^ 32))
    ⟨fun h => ⟨h.1, h.2⟩, fun h => ⟨h.boundary, h.short⟩⟩

/-- A directory to start from: it is sound, and what lies in the old layout or is referenced can be
read. -/
structure Disk.Undamaged (d : Disk) : Prop where
  sound : d.Sound
  objects : d.ObjectsIntact
  live : ∀ h loc, (insertAll ∅ (refEntries d.refsTsv)).lookup h = some loc → d.RefLive h loc

/-- What a session keeps: but for its torn line the directory stays undamaged, and the handle has
read what it has passed and knows every reference; and what was returned is there. -/
structure PutSession.Sound (c : PutSession) : Prop where
  text : validUtf8 c.disk.index = true
  disk : c.disk.trimmed.Undamaged
  store : c.store.Sound c.disk.trimmed
  refs : c.store.refs = insertAll ∅ (refEntries c.disk.refsTsv)
  refsRead : c.store.refsPos = c.disk.refsTsv.length
  packs : c.disk.PacksHold []
  held : ∀ bytes ∈ c.returned, (c.disk.trimmed.Indexed (Hash.of bytes) ∨
    Hash.of bytes ∈ c.disk.objects ∨ Hash.of bytes ∈ c.store.refs) ∧
      (Hash.of bytes ∈ c.disk.objects ∨ bytes.length < 2 ^ 32)

omit [Blake3] in
theorem Store.recheck_packState (d : Disk) (s : Store) :
    (s.recheck d).packState = s.packState := by
  have hrefs : ∀ t : Store, (t.tryRefreshRefs d).packState = t.packState := by
    intro t
    unfold Store.tryRefreshRefs Store.refreshRefs
    rcases refreshTail refEntry d.refsTsv t.refs t.refsPos with _ | r
    · rfl
    · rfl
  rw [Store.recheck, hrefs]
  unfold Store.tryRefreshPackIndex Store.refreshPackIndex
  rcases refreshTail packEntry d.index s.packIndex s.packIndexPos with _ | r
  · rfl
  · rfl

omit [Blake3] in
/-- A handle at the end of the references reads no more of them. -/
theorem Store.refsRead_of_end (h : s.refsPos = d.refsTsv.length) : s.refsRead d = s := by
  rw [Store.refsRead, h, List.drop_length, ← h]
  rfl

/-- What the index lists it goes on listing. -/
theorem Disk.Indexed.extend {d' : Disk} {h : Hash} (hd : d.Sound) (hext : d.Extends d')
    (hi : d.Indexed h) : d'.Indexed h := by
  obtain ⟨loc, hloc⟩ := hi
  obtain ⟨t, ht, -⟩ := hext.index
  refine ⟨loc, ?_⟩
  rw [ht, packEntries_append hd.indexClosed]
  exact List.mem_append_left _ hloc

variable {c c' : PutSession} {a : Attempt}

/-- The second look of a session reads the index and nothing else. -/
theorem PutSession.Sound.recheck_eq (hc : c.Sound) :
    c.store.recheck c.disk = c.store.indexRead c.disk.trimmed := by
  rw [Store.recheck_trimmed hc.text hc.disk.sound hc.store]
  exact Store.refsRead_of_end hc.refsRead

/-- It finds what the index lists, what lies in the old layout and what is referenced. -/
theorem PutSession.Sound.finds_iff (hc : c.Sound) {h : Hash} : c.store.Finds c.disk h ↔
    c.disk.trimmed.Indexed h ∨ h ∈ c.disk.objects ∨ h ∈ c.store.refs := by
  rw [Store.Finds, hc.recheck_eq, Store.holds]
  simp only [Bool.or_eq_true, decide_eq_true_eq, Store.indexRead_mem hc.store, or_assoc]
  constructor
  · rintro (hp | h')
    · exact .inl (hc.store.indexed hp)
    · exact h'
  · exact .inr

/-- What a step may do to the directory and the handle. -/
theorem PutSession.Sound.extend (hc : c.Sound) (htext : validUtf8 c'.disk.index = true)
    (hext : c.disk.trimmed.Extends c'.disk.trimmed) (hrefsTsv : c'.disk.refsTsv = c.disk.refsTsv)
    (hsources : c'.disk.sources = c.disk.sources) (hs : c'.store.Sound c'.disk.trimmed)
    (hrefs : c'.store.refs = c.store.refs) (hpos : c'.store.refsPos = c.store.refsPos)
    (hreturned : ∀ bytes ∈ c'.returned, bytes ∈ c.returned ∨
      ((c'.disk.trimmed.Indexed (Hash.of bytes) ∨ Hash.of bytes ∈ c.disk.objects ∨
        Hash.of bytes ∈ c.store.refs) ∧
          (Hash.of bytes ∈ c.disk.objects ∨ bytes.length < 2 ^ 32))) : c'.Sound := by
  have hobjects : c'.disk.objects = c.disk.objects := hext.objects
  refine ⟨htext, ⟨hc.disk.sound.extend hext, ?_, ?_⟩, hs, ?_, ?_, ?_, fun bytes hb => ?_⟩
  · intro h bytes hl
    exact hc.disk.objects h bytes (hext.objects ▸ hl)
  · intro h loc hl
    obtain ⟨content, bytes, hfile, hread⟩ := hc.disk.live h loc (hrefsTsv ▸ hl)
    exact ⟨content, bytes, hsources ▸ hfile, hread⟩
  · rw [hrefs, hc.refs, hrefsTsv]
  · rw [hpos, hc.refsRead, hrefsTsv]
  · obtain ⟨id, content, hl, -⟩ := hc.packs
    obtain ⟨more, hm⟩ := hext.packs id content hl
    exact ⟨id, _, hm, List.nil_infix⟩
  · rw [hobjects, hrefs]
    rcases hreturned bytes hb with hold | hnew
    · obtain ⟨hheld, hshort⟩ := hc.held bytes hold
      exact ⟨hheld.imp_left (Disk.Indexed.extend hc.disk.sound hext), hshort⟩
    · exact hnew

/-! ## One step -/

/-- A `put` that finds its chunk. -/
theorem PutSession.Sound.found (hc : c.Sound) {s' : Store} (hfinds : c.store.Finds c.disk
    (Hash.of a.bytes)) (hs : s' = c.store ∨ s' = c.store.tryRefreshPackIndex c.disk ∨
      s' = c.store.recheck c.disk) (hshort : Hash.of a.bytes ∈ c.disk.objects ∨
        a.bytes.length < 2 ^ 32) :
    PutSession.Sound ⟨c.disk, s', c.returned ++ [a.bytes]⟩ := by
  have hread : s' = c.store ∨ s' = c.store.indexRead c.disk.trimmed := by
    rcases hs with h | h | h
    · exact .inl h
    · exact .inr (h.trans (Store.tryRefreshPackIndex_trimmed hc.text hc.disk.sound hc.store))
    · exact .inr (h.trans hc.recheck_eq)
  have hsound : s'.Sound c.disk.trimmed ∧ s'.refs = c.store.refs ∧
      s'.refsPos = c.store.refsPos := by
    rcases hread with rfl | rfl
    · exact ⟨hc.store, rfl, rfl⟩
    · exact ⟨hc.store.indexRead hc.disk.sound, rfl, rfl⟩
  refine hc.extend hc.text (.refl _) rfl rfl hsound.1 hsound.2.1 hsound.2.2 fun bytes hb => ?_
  rcases List.mem_append.mp hb with hb | hb
  · exact .inl hb
  · rw [List.mem_singleton.mp hb]
    exact .inr ⟨hc.finds_iff.mp hfinds, hshort⟩

/-- A `put` that fails, before its index line or within it. -/
theorem PutSession.Sound.failed (hc : c.Sound) {q : PackState} {d' : Disk}
    (htext : validUtf8 d'.index = true) (hext : c.disk.trimmed.Extends d'.trimmed)
    (hrefsTsv : d'.refsTsv = c.disk.refsTsv) (hsources : d'.sources = c.disk.sources) :
    PutSession.Sound ⟨d', { c.store.indexRead c.disk.trimmed with packState := q },
      c.returned⟩ := by
  have hs := (hc.store.indexRead hc.disk.sound).extend hc.disk.sound hext
  exact hc.extend htext hext hrefsTsv hsources ⟨hs.index, hs.refs, hs.listed⟩ rfl rfl
    fun _ hb => .inl hb

/-- A `put` that writes its chunk behind a line boundary. -/
theorem PutSession.Sound.written (hc : c.Sound) {id : UInt32} {offset : UInt64} {q : PackState}
    {d' : Disk} (hw : c.store.packState.write c.disk a.bytes = (some (id, offset), q, d'))
    (hnew : Hash.of a.bytes ∉ c.disk.objects) (hclosed : Terminated LF c.disk.index)
    (hshort : a.bytes.length < 2 ^ 32) :
    let s := c.store.indexRead c.disk.trimmed
    let loc : PackLoc := ⟨id, offset, UInt32.ofNat a.bytes.length⟩
    let line := packIndexLine (Hash.of a.bytes) loc
    PutSession.Sound ⟨{ d' with index := d'.index ++ line },
      { s with
        packState := q
        packIndex := s.packIndex.insert (Hash.of a.bytes) loc
        packIndexPos := s.packIndexPos + line.length }, c.returned ++ [a.bytes]⟩ := by
  intro s loc line
  have hpacked := Disk.packed_of_write hw
  obtain ⟨packs, rfl, hgrow⟩ := PackState.write_disk hw
  have htrimmed : c.disk.trimmed = c.disk := Disk.trimmed_of_closed hclosed
  have htrimmed' : Disk.trimmed { c.disk with packs := packs, index := c.disk.index ++ line } =
      { c.disk with packs := packs, index := c.disk.index ++ line } :=
    Disk.trimmed_of_closed (hclosed.append (packIndexLine_terminated _ _))
  have hext := Disk.trimmed_append hc.text hgrow hpacked hnew line.length
  rw [List.take_length] at hext
  refine hc.extend (validUtf8_append hc.text (validUtf8_packIndexLine _ _)) hext rfl rfl ?_ rfl rfl
    fun bytes hb => ?_
  · refine Store.Sound.append hc.disk.sound (hc.store.indexRead hc.disk.sound) rfl ?_ rfl
    rw [htrimmed', htrimmed]
  · rcases List.mem_append.mp hb with hb | hb
    · exact .inl hb
    · rw [List.mem_singleton.mp hb, htrimmed']
      refine .inr ⟨.inl ⟨loc, ?_⟩, .inr hshort⟩
      show _ ∈ packEntries (c.disk.index ++ line)
      rw [packEntries_append hclosed, packEntries_packIndexLine]
      exact List.mem_append_right _ List.mem_cons_self

theorem PutSession.step_ok {r : Hash × Bool} {d' : Disk} {s' : Store}
    (h : c.store.faultyPut c.disk a.bytes a.fault = (.ok r, d', s')) :
    c.step a = some ⟨d', s', c.returned ++ [a.bytes]⟩ := by
  rw [PutSession.step, h]
  rfl

theorem PutSession.step_error {e : StoreError} {d' : Disk} {s' : Store}
    (h : c.store.faultyPut c.disk a.bytes a.fault = (.error e, d', s')) :
    c.step a = some ⟨d', s', c.returned⟩ := by
  rw [PutSession.step, h]
  exact congrArg (fun returned => some (PutSession.mk d' s' returned)) (List.append_nil _)

/-- What a step keeps: a safe step leads from a sound session to a sound one. -/
theorem PutSession.Sound.step (hc : c.Sound) (ha : c.Safe a) (h : c.step a = some c') :
    c'.Sound := by
  have hstate := Store.recheck_packState c.disk c.store
  rcases Store.faultyPut_cases c.disk c.store a.bytes a.fault with
    ⟨hfinds, s', he, hs⟩ | ⟨hno, he⟩
  · rw [PutSession.step_ok he] at h
    cases h
    exact hc.found hfinds hs (ha.short (.inl hfinds))
  rw [hc.recheck_eq] at he hstate
  have hnew : Hash.of a.bytes ∉ c.disk.objects := fun hm =>
    hno (hc.finds_iff.mpr (.inr (.inl hm)))
  rcases Store.faultyPack_cases c.disk (c.store.indexRead c.disk.trimmed) a.bytes a.fault with
    ⟨-, q, packs, hgrow, hp⟩ | ⟨hroom, id, offset, q, d', hw, ⟨n, -, hp⟩ | ⟨hnone, hp⟩⟩
  · rw [PutSession.step_error (he.trans hp)] at h
    cases h
    exact hc.failed hc.text (Disk.Extends.of_packs (d := c.disk.trimmed) hgrow) rfl rfl
  · rw [PutSession.step_error (he.trans hp)] at h
    cases h
    have hpacked := Disk.packed_of_write hw
    obtain ⟨packs, rfl, hgrow⟩ := PackState.write_disk hw
    refine hc.failed (validUtf8_append hc.text ?_)
      (Disk.trimmed_append hc.text hgrow hpacked hnew n) rfl rfl
    exact validUtf8_of_ascii fun b hb => packIndexLine_ascii _ _ b (List.mem_of_mem_take hb)
  · rw [PutSession.step_ok (he.trans hp)] at h
    cases h
    rw [hstate] at hw hroom
    exact hc.written hw hnew (ha.boundary hnone hno hroom)
      ((ha.short (.inr ⟨hnone, hroom⟩)).resolve_left hnew)

/-! ## What is found -/

/-- The directory that an opening leaves stores no other bytes. -/
theorem Disk.NoCollision.open {bytes : Bytes} (hpacks : d.PacksHold [])
    (hnc : d.NoCollision bytes) : (PackState.open d).2.NoCollision bytes := by
  have hopened : (PackState.open d).2.packs = d.packs.insert (PackState.open d).1.currentId
      ((d.packs.lookup (PackState.open d).1.currentId).getD []) := rfl
  rintro other (⟨id, content, hl, hin⟩ | hold)
  · rw [hopened] at hl
    refine hnc other (.inl ?_)
    by_cases hid : id = (PackState.open d).1.currentId
    · subst hid
      rcases hold : d.packs.lookup (PackState.open d).1.currentId with _ | old
      · -- a new pack file is empty
        have hnil : content = [] := by
          rw [Finmap.lookup_insert, hold] at hl
          exact (Option.some.inj hl).symm
        rw [hnil, List.infix_nil] at hin
        exact hin ▸ hpacks
      · refine ⟨_, old, hold, ?_⟩
        rw [Finmap.lookup_insert, hold] at hl
        have hsame : content = old := (Option.some.inj hl).symm
        exact hsame ▸ hin
    · rw [Finmap.lookup_insert_of_ne _ hid] at hl
      exact ⟨id, content, hl, hin⟩
  · exact hnc other (.inr hold)

/-- What is listed, lies in the old layout or is referenced by a live reference, a handle
serves. -/
theorem Store.serves_of_held {h : Hash} (hindexed : d.Indexed h ∨ h ∈ d.objects ∨ h ∈ s.refs)
    (hlive : ∀ loc, s.refs.lookup h = some loc → d.RefLive h loc) : s.Serves d h := by
  cases href : s.refs.lookup h with
  | some loc => exact .inr (.inr (.inl ⟨loc, href, hlive loc href⟩))
  | none =>
    rcases hindexed with hi | ho | hr
    · exact .inr (.inr (.inr ⟨hi, fun loc hl => by rw [href] at hl; cases hl⟩))
    · exact .inr (.inl ho)
    · exact absurd hr (Finmap.lookup_eq_none.mp href)

/-- In a sound session what was returned is found, before and after a reopening. -/
theorem PutSession.Sound.retrievable (hc : c.Sound) {bytes : Bytes} (hb : bytes ∈ c.returned)
    (hnc : c.disk.NoCollision bytes) : c.Retrievable bytes := by
  obtain ⟨hheld, hshort⟩ := hc.held bytes hb
  have hlive : ∀ loc, c.store.refs.lookup (Hash.of bytes) = some loc →
      c.disk.trimmed.RefLive (Hash.of bytes) loc := fun loc hl =>
    hc.disk.live _ loc (hc.refs ▸ hl)
  constructor
  · rw [Store.get_trimmed hc.text hc.store]
    exact (Store.get_ok_iff hc.disk.sound hc.disk.objects hc.store hnc fun ho =>
      hshort.resolve_left ho).mpr (Store.serves_of_held hheld hlive)
  · obtain ⟨s, d', hopen, -, hext, hs, -, hrefs⟩ := Store.open_sound hc.disk.sound
    have hdisk : d' = (PackState.open c.disk.trimmed).2 := by
      have he := hopen.symm.trans (Store.open_eq hc.disk.sound.indexText
        hc.disk.sound.indexClosed hc.disk.sound.refsText hc.disk.sound.refsClosed)
      exact (Prod.mk.inj he).2
    have hsame : s.refs = c.store.refs := hrefs.trans hc.refs.symm
    refine ⟨s, d', (Store.open_trimmed hc.text hc.disk.sound.refsText
      hc.disk.sound.refsClosed).trans hopen, ?_⟩
    refine (Store.get_ok_iff (hc.disk.sound.extend hext) ?_ hs ?_ fun ho => ?_).mpr ?_
    · intro h old hl
      exact hc.disk.objects h old (hext.objects ▸ hl)
    · rw [hdisk]
      exact Disk.NoCollision.open hc.packs hnc
    · exact hshort.resolve_left (hext.objects ▸ ho)
    · refine Store.serves_of_held ?_ fun loc hl => ?_
      · rw [hext.objects, hsame]
        exact hheld.imp_left (Disk.Indexed.extend hc.disk.sound hext)
      · obtain ⟨content, other, hfile, hread⟩ := hlive loc (hsame ▸ hl)
        rw [hdisk]
        exact ⟨content, other, hfile, hread⟩

/-! ## What is lost -/

/-- A chunk that is neither listed nor in the old layout nor referenced is not found. -/
theorem Store.get_of_absent {h : Hash} (hd : d.Sound) (hs : s.Sound d) (hi : ¬ d.Indexed h)
    (ho : h ∉ d.objects) (hr : h ∉ s.refs) : (s.get d h).1 = .ok none := by
  have hp : h ∉ s.packIndex := fun hm => hi (hs.indexed hm)
  have hp' : h ∉ (s.indexRead d).packIndex := fun hm =>
    ((Store.indexRead_mem hs h).mp hm).elim hp hi
  have hrefresh : s.refreshPackIndex d = some (s.indexRead d) := Store.refreshPackIndex_eq hd hs
  have href : s.getReference d h = .ok none := by
    rw [Store.getReference, Finmap.lookup_eq_none.mpr hr]
  unfold Store.get
  rw [Store.getFromPackIndex_of_notMem hp]
  simp only [Disk.getObject_of_notMem ho, href, hrefresh, Store.getFromPackIndex_of_notMem hp']

/-- A `put` that finds its chunk, or has room and no error, returns. -/
theorem PutSession.Sound.returns (hc : c.Sound) (h : c.step a = some c')
    (hok : c.store.Finds c.disk (Hash.of a.bytes) ∨
      (a.fault = none ∧ c.store.packState.HasRoom c.disk a.bytes)) :
    a.bytes ∈ c'.returned ∧ c'.disk.objects = c.disk.objects := by
  rcases Store.faultyPut_cases c.disk c.store a.bytes a.fault with
    ⟨-, s', he, -⟩ | ⟨hno, he⟩
  · rw [PutSession.step_ok he] at h
    cases h
    exact ⟨by simp, rfl⟩
  rw [hc.recheck_eq] at he
  have hokPack : a.fault = none ∧
      (c.store.indexRead c.disk.trimmed).packState.HasRoom c.disk a.bytes :=
    hok.resolve_left hno
  rcases Store.faultyPack_cases c.disk (c.store.indexRead c.disk.trimmed) a.bytes a.fault with
    ⟨hnot, -⟩ | ⟨-, id, offset, q, d', hw, ⟨n, hline, -⟩ | ⟨-, hp⟩⟩
  · exact absurd hokPack hnot
  · rw [hokPack.1] at hline
    cases hline
  · rw [PutSession.step_ok (he.trans hp)] at h
    cases h
    obtain ⟨packs, rfl, -⟩ := PackState.write_disk hw
    exact ⟨by simp, rfl⟩

/-- Behind a torn line a chunk is lost: its `put` returns, and a reopening does not find it. -/
theorem PutSession.Sound.lost (hc : c.Sound) (h : c.step a = some c') (hnone : a.fault = none)
    (hno : ¬ c.store.Finds c.disk (Hash.of a.bytes))
    (hroom : c.store.packState.HasRoom c.disk a.bytes) (htorn : ¬ Terminated LF c.disk.index) :
    ¬ c'.Retrievable a.bytes := by
  have habsent := fun hheld => hno (hc.finds_iff.mpr hheld)
  simp only [not_or, imp_false] at habsent
  obtain ⟨he, -⟩ | ⟨-, he⟩ := Store.faultyPut_cases c.disk c.store a.bytes a.fault
  · exact absurd he hno
  rw [hc.recheck_eq] at he
  rcases Store.faultyPack_cases c.disk (c.store.indexRead c.disk.trimmed) a.bytes a.fault with
    ⟨hnot, -⟩ | ⟨-, id, offset, q, d', hw, ⟨n, hline, -⟩ | ⟨-, hp⟩⟩
  · exact absurd ⟨hnone, hroom⟩ hnot
  · rw [hnone] at hline
    cases hline
  rw [PutSession.step_ok (he.trans hp)] at h
  cases h
  have hpacked := Disk.packed_of_write hw
  obtain ⟨packs, rfl, hgrow⟩ := PackState.write_disk hw
  let line := packIndexLine (Hash.of a.bytes) ⟨id, offset, UInt32.ofNat a.bytes.length⟩
  have hext := Disk.trimmed_append hc.text hgrow hpacked habsent.2.1 line.length
  rw [List.take_length] at hext
  have hsound := hc.disk.sound.extend hext
  obtain ⟨s, d', hopen, hd', hext', hs, -, hrefs⟩ := Store.open_sound hsound
  have htrimmed := Store.open_trimmed
    (d := { c.disk with packs := packs, index := c.disk.index ++ line })
    (validUtf8_append hc.text (validUtf8_packIndexLine _ _)) hsound.refsText hsound.refsClosed
  rintro ⟨-, s', d'', hopen', hget⟩
  have hsame := hopen'.symm.trans (htrimmed.trans hopen)
  cases hsame
  have hlisted : packEntries d'.index = packEntries c.disk.trimmed.index := by
    rw [hd']
    exact packEntries_trimmed_glued htorn
  rw [Store.get_of_absent (hsound.extend hext') hs ?_ ?_ ?_] at hget
  · cases hget
  · rintro ⟨loc, hloc⟩
    exact habsent.1 ⟨loc, hlisted ▸ hloc⟩
  · rw [hext'.objects]
    exact habsent.2.1
  · rw [hrefs]
    exact hc.refs ▸ habsent.2.2

/-- An unsafe step loses a chunk that was returned. -/
theorem PutSession.Sound.loses (hc : c.Sound) (ha : ¬ c.Safe a) (h : c.step a = some c') :
    ¬ ∀ bytes ∈ c'.returned, c'.Retrievable bytes := by
  intro hall
  refine ha ⟨fun hnone hno hroom => ?_, fun hok => ?_⟩
  · by_contra htorn
    exact hc.lost h hnone hno hroom htorn (hall _ (hc.returns h (.inr ⟨hnone, hroom⟩)).1)
  · obtain ⟨hb, hobjects⟩ := hc.returns h hok
    by_contra hlong
    rw [not_or] at hlong
    exact hlong.2 (Store.length_of_get (hobjects ▸ hlong.1) (hall _ hb).1)

/-! ## Runs -/

/-- A directory with more in its pack files, and the rest the same. -/
def Disk.KeepsChunks (d d' : Disk) : Prop :=
  PacksGrow d.packs d'.packs ∧ d'.objects = d.objects ∧ d'.sources = d.sources

/-- A collision stays one. -/
theorem Disk.NoCollision.of_keepsChunks {d' : Disk} {bytes : Bytes} (h : d.KeepsChunks d')
    (hnc : d'.NoCollision bytes) : d.NoCollision bytes := by
  obtain ⟨hgrow, hobjects, hsources⟩ := h
  rintro other (⟨id, content, hl, hin⟩ | ⟨g, hl⟩ | ⟨path, content, hl, hin⟩)
  · obtain ⟨more, hm⟩ := hgrow id content hl
    exact hnc other (.inl ⟨id, _, hm, hin.trans (List.prefix_append _ _).isInfix⟩)
  · exact hnc other (.inr (.inl ⟨g, hobjects ▸ hl⟩))
  · exact hnc other (.inr (.inr ⟨path, content, hsources ▸ hl, hin⟩))

/-- A step adds to the pack files, and returns its own chunk at most. -/
theorem PutSession.step_grows (h : c.step a = some c') : c.disk.KeepsChunks c'.disk ∧
    ∀ bytes ∈ c'.returned, bytes ∈ c.returned ∨ bytes = a.bytes := by
  have hreturned : ∀ bytes ∈ c.returned ++ [a.bytes], bytes ∈ c.returned ∨ bytes = a.bytes := by
    intro bytes hb
    simpa using hb
  rcases Store.faultyPut_cases c.disk c.store a.bytes a.fault with
    ⟨-, s', he, -⟩ | ⟨-, he⟩
  · rw [PutSession.step_ok he] at h
    cases h
    exact ⟨⟨.refl _, rfl, rfl⟩, hreturned⟩
  rcases Store.faultyPack_cases c.disk (c.store.recheck c.disk) a.bytes a.fault with
    ⟨-, q, packs, hgrow, hp⟩ | ⟨-, id, offset, q, d', hw, ⟨n, -, hp⟩ | ⟨-, hp⟩⟩
  · rw [PutSession.step_error (he.trans hp)] at h
    cases h
    exact ⟨⟨hgrow, rfl, rfl⟩, fun _ hb => .inl hb⟩
  · rw [PutSession.step_error (he.trans hp)] at h
    cases h
    obtain ⟨packs, rfl, hgrow⟩ := PackState.write_disk hw
    exact ⟨⟨hgrow, rfl, rfl⟩, fun _ hb => .inl hb⟩
  · rw [PutSession.step_ok (he.trans hp)] at h
    cases h
    obtain ⟨packs, rfl, hgrow⟩ := PackState.write_disk hw
    exact ⟨⟨hgrow, rfl, rfl⟩, hreturned⟩

/-- A run adds to the pack files, and returns chunks of its own at most. -/
theorem PutSession.runs_grows {as : List Attempt} (hr : runs PutSession.step c as = some c') :
    c.disk.KeepsChunks c'.disk ∧
      ∀ bytes ∈ c'.returned, bytes ∈ c.returned ∨ ∃ a ∈ as, a.bytes = bytes := by
  induction as generalizing c with
  | nil =>
    cases hr
    exact ⟨⟨.refl _, rfl, rfl⟩, fun _ hb => .inl hb⟩
  | cons a as ih =>
    obtain ⟨t, ht, hrest⟩ := runs_cons.mp hr
    obtain ⟨⟨hgrow, hobjects, hsources⟩, hreturned⟩ := PutSession.step_grows ht
    obtain ⟨⟨hgrow', hobjects', hsources'⟩, hreturned'⟩ := ih hrest
    refine ⟨⟨hgrow.trans hgrow', hobjects'.trans hobjects, hsources'.trans hsources⟩,
      fun bytes hb => ?_⟩
    rcases hreturned' bytes hb with hb | ⟨b, hm, rfl⟩
    · rcases hreturned bytes hb with hb | rfl
      · exact .inl hb
      · exact .inr ⟨a, List.mem_cons_self, rfl⟩
    · exact .inr ⟨b, List.mem_cons_of_mem _ hm, rfl⟩

/-- A handle that has just opened an undamaged directory. -/
theorem PutSession.sound_open {d₀ : Disk} (hopen : Store.open d₀ = (.ok s, d))
    (hd : d.Undamaged) : PutSession.Sound ⟨d, s, []⟩ := by
  obtain ⟨htext, hclosed, -, hrefsClosed, d₁, hd₁, rfl⟩ := Store.open_loads hopen
  have htrimmed : d.trimmed = d := Disk.trimmed_of_closed hclosed
  refine ⟨htext, htrimmed.symm ▸ hd, ?_, rfl, rfl, ?_, fun _ hb => nomatch hb⟩
  · rw [htrimmed]
    exact Store.sound_loaded hclosed hrefsClosed _
  · have hpack : d.packs.lookup (PackState.open d₁).1.currentId =
        some ((d₁.packs.lookup (PackState.open d₁).1.currentId).getD []) := by
      conv_lhs => rw [hd₁]
      exact Finmap.lookup_insert _
    exact ⟨_, _, hpack, List.nil_infix⟩

/-- A failed append damages later puts: throughout a session of one handle, in which any `put` may
fail after any part of its chunk or index line, all chunks whose `put` returned are found by the
handle and after a reopening if and only if all its steps are safe. The index is not at a line
boundary once a line was cut, until a failing `put` happens to write a whole line behind it. -/
theorem failed_appends_iff {d₀ : Disk} {as : List Attempt}
    (hopen : Store.open d₀ = (.ok s, d)) (hd : d.Undamaged)
    (hr : runs PutSession.step ⟨d, s, []⟩ as = some c)
    (hnc : ∀ a ∈ as, c.disk.NoCollision a.bytes) :
    (∀ pre post c', as = pre ++ post → runs PutSession.step ⟨d, s, []⟩ pre = some c' →
      ∀ bytes ∈ c'.returned, c'.Retrievable bytes) ↔
    Along PutSession.step PutSession.Safe ⟨d, s, []⟩ as := by
  have hstart := PutSession.sound_open hopen hd
  constructor
  · exact along_of_forall_prefix (I := PutSession.Sound) (fun _ _ _ hc ha h => hc.step ha h)
      (fun _ _ _ hc ha h => hc.loses ha h) hstart hr
  · rintro hsafe pre post c' rfl hpre bytes hb
    have hsound : c'.Sound :=
      runs_invariant (fun _ _ _ hc ha h => PutSession.Sound.step hc ha h) hstart hsafe.left hpre
    obtain ⟨t, ht, hpost⟩ := runs_append.mp hr
    obtain rfl : c' = t := Option.some.inj (hpre.symm.trans ht)
    obtain hnil | ⟨a, ha, rfl⟩ := (PutSession.runs_grows hpre).2 bytes hb
    · cases hnil
    · exact hsound.retrievable hb ((hnc a (List.mem_append_left _ ha)).of_keepsChunks
        (PutSession.runs_grows hpost).1)

end

/-- The same chunk again and again: its line is cut, then written whole behind the cut one, then
the chunk itself fails, and then all goes well. -/
def cutAndClosed : List Attempt :=
  [⟨[120], some (.line 3)⟩, ⟨[120], some (.line 72)⟩, ⟨[120], some (.chunk 0)⟩, ⟨[120], none⟩,
    ⟨[120], none⟩]

/-- After that the chunk is found. -/
theorem failed_appends_closed :
    let _ := blake3OfX
    ∃ c, runs PutSession.step ⟨openedDisk, Store.fresh, []⟩ cutAndClosed = some c ∧
      c.returned = [[120], [120]] ∧ ∀ bytes ∈ c.returned, c.Retrievable bytes := by
  have hsafe : Along (@PutSession.step blake3OfX) (@PutSession.Safe blake3OfX)
      ⟨openedDisk, Store.fresh, []⟩ cutAndClosed := by
    decide +kernel
  let _ := blake3OfX
  have hreturned : (runs PutSession.step ⟨openedDisk, Store.fresh, []⟩ cutAndClosed).map
      PutSession.returned = some [[120], [120]] := by
    decide +kernel
  have hbytes : ∀ a ∈ cutAndClosed, a.bytes = [120] := by decide
  obtain ⟨c, hr, hc⟩ := Option.map_eq_some_iff.mp hreturned
  have hd : openedDisk.Undamaged := by
    refine ⟨⟨rfl, terminated_nil, rfl, terminated_nil, ?_, ?_⟩, ?_, ?_⟩
    · simp [openedDisk, Disk.fresh, entries, pieces]
    · simp [openedDisk, Disk.fresh, entries, pieces]
    · simp [Disk.ObjectsIntact, openedDisk, Disk.fresh]
    · simp [openedDisk, Disk.fresh, entries, pieces]
  have hnc : ∀ a ∈ cutAndClosed, c.disk.NoCollision a.bytes := by
    intro a ha other _ he
    rw [hbytes a ha] at he ⊢
    exact eq_of_digestOfX he
  refine ⟨c, hr, hc, ?_⟩
  exact (failed_appends_iff open_empty hd hr hnc).mpr hsafe cutAndClosed [] c
    (List.append_nil _).symm hr

/-- A chunk is lost behind a line that was cut: its `put` returns, the handle finds it, and after a
reopening it is gone. -/
theorem failed_append_loses_next :
    let _ := blake3OfX
    ∃ c s d, runs PutSession.step ⟨openedDisk, Store.fresh, []⟩
        [⟨[120], some (.line 3)⟩, ⟨[120], none⟩] = some c ∧ [120] ∈ c.returned ∧
      (c.store.get c.disk digestOfX).1 = .ok (some [120]) ∧
      Store.open c.disk = (.ok s, d) ∧ (s.get d digestOfX).1 = .ok none ∧
      ¬ c.Retrievable [120] := by
  let _ := blake3OfX
  have hgone : ∀ c s d, Store.open c.disk = (.ok s, d) → (s.get d digestOfX).1 = .ok none →
      ¬ PutSession.Retrievable c [120] := by
    rintro c s d hopen hnone ⟨-, s', d', hopen', hget⟩
    have hsame := hopen.symm.trans hopen'
    cases hsame
    rw [show Hash.of [120] = digestOfX from rfl, hnone] at hget
    cases hget
  refine ⟨_, _, _, rfl, List.mem_cons_self, rfl, rfl, rfl, ?_⟩
  exact hgone _ _ _ rfl rfl

end Np2ptp
