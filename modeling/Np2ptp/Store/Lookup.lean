import Np2ptp.Store.ExportLaws
import Np2ptp.Store.History

/-!
# What a handle can serve

A handle looks for a chunk in three layouts, and reads the index once more when it finds none. It
serves the chunk (`Store.Serves`) when one of these leads to the bytes; for sound handles `get`
succeeds in exactly these cases. From this follows when a sibling serves what another handle holds
(`sibling_serves_iff`), and when content that was put is found again (`put_then_get_iff`): both fail
on chunks that are only referenced, since `has` and `get` never read the references that others
added, and `put` takes a dead reference for the chunk.
-/

namespace Np2ptp

open Lib

section

variable [Blake3]

/-- The source file still has bytes of the hash where the reference says. -/
def Disk.RefLive (d : Disk) (h : Hash) (loc : RefLoc) : Prop :=
  ∃ content bytes, d.sources.lookup loc.path = some (.file content) ∧
    readAt content loc.offset loc.length = some bytes ∧ Hash.of bytes = h

/-- The chunk is in the handle's pack index or in the old layout; or the handle's reference to it
is live; or the index lists it and the handle has no reference to it, or one whose file is gone. -/
def Store.Serves (d : Disk) (s : Store) (h : Hash) : Prop :=
  h ∈ s.packIndex ∨ h ∈ d.objects ∨ (∃ loc, s.refs.lookup h = some loc ∧ d.RefLive h loc) ∨
    (d.Indexed h ∧ ∀ loc, s.refs.lookup h = some loc → d.sources.lookup loc.path = none)

/-- The bytes lie in a file of the store or in a source file. -/
def Disk.Stores (d : Disk) (bytes : Bytes) : Prop :=
  d.PacksHold bytes ∨ (∃ h, d.objects.lookup h = some bytes) ∨
    ∃ path content, d.sources.lookup path = some (.file content) ∧ bytes <:+: content

/-- No other string that lies on the disk has the digest of the bytes. -/
def Disk.NoCollision (d : Disk) (bytes : Bytes) : Prop :=
  ∀ other, d.Stores other → Hash.of other = Hash.of bytes → other = bytes

/-! ## What each layout returns -/

theorem checkRead_of_eq {h : Hash} {bytes : Bytes} (e : Hash.of bytes = h) :
    checkRead h (some bytes) = .ok (some bytes) := by
  rw [checkRead, if_neg (not_not.mpr e)]

omit [Blake3] in
theorem Disk.stores_of_readFromPack {d : Disk} {loc : PackLoc} {bytes : Bytes}
    (h : d.readFromPack loc = some bytes) : d.Stores bytes := by
  obtain ⟨content, hc, hb⟩ := Option.bind_eq_some_iff.mp h
  exact .inl ⟨_, content, hc, infix_of_readAt hb⟩

variable {d : Disk} {s : Store} {bytes : Bytes}

/-- A pack entry of a sound handle leads to the chunk. -/
theorem Store.getFromPackIndex_of_mem (hd : d.Sound) (hs : s.Sound d)
    (hnc : d.NoCollision bytes) (hlen : Hash.of bytes ∉ d.objects → bytes.length < 2 ^ 32)
    (hm : Hash.of bytes ∈ s.packIndex) :
    s.getFromPackIndex d (Hash.of bytes) = .ok (some bytes) := by
  obtain ⟨loc, hl⟩ := Finmap.mem_iff.mp hm
  have hlisted := hs.listed _ _ hl
  rw [Store.getFromPackIndex, hl]
  rcases hd.packed _ hlisted with ⟨other, hr, hh⟩ | ⟨other, hlong, hh, hhold⟩
  · have he := hnc other (Disk.stores_of_readFromPack hr) hh
    subst he
    dsimp only
    rw [hr, checkRead_of_eq rfl]
  · have he := hnc other (.inl hhold) hh
    subst he
    have := hlen (hd.once _ hlisted)
    omega

theorem Store.getFromPackIndex_of_notMem {h : Hash} (hm : h ∉ s.packIndex) :
    s.getFromPackIndex d h = .ok none := by
  rw [Store.getFromPackIndex, Finmap.lookup_eq_none.mpr hm]

theorem Disk.getObject_of_mem (ho : d.ObjectsIntact) (hnc : d.NoCollision bytes)
    (hm : Hash.of bytes ∈ d.objects) : d.getObject (Hash.of bytes) = .ok (some bytes) := by
  obtain ⟨other, hl⟩ := Finmap.mem_iff.mp hm
  have hh := ho _ _ hl
  have he := hnc other (.inr (.inl ⟨_, hl⟩)) hh
  subst he
  rw [Disk.getObject, hl]
  exact checkRead_of_eq rfl

theorem Disk.getObject_of_notMem {h : Hash} (hm : h ∉ d.objects) : d.getObject h = .ok none := by
  rw [Disk.getObject, Finmap.lookup_eq_none.mpr hm]

/-- A live reference leads to the chunk. -/
theorem Store.getReference_of_live {loc : RefLoc} (hnc : d.NoCollision bytes)
    (hl : s.refs.lookup (Hash.of bytes) = some loc) (hlive : d.RefLive (Hash.of bytes) loc) :
    s.getReference d (Hash.of bytes) = .ok (some bytes) := by
  obtain ⟨content, other, hfile, hr, hh⟩ := hlive
  have he := hnc other (.inr (.inr ⟨_, content, hfile, infix_of_readAt hr⟩)) hh
  subst he
  simp only [Store.getReference, hl, hfile, hr]
  exact checkRead_of_eq rfl

/-- A reference that is neither live nor without its file fails. -/
theorem Store.getReference_of_dead {h : Hash} {loc : RefLoc} (hl : s.refs.lookup h = some loc)
    (hdead : ¬ d.RefLive h loc) (hfile : d.sources.lookup loc.path ≠ none) :
    ∃ e, s.getReference d h = .error e := by
  simp only [Store.getReference, hl]
  split
  · next hnone => exact absurd hnone hfile
  · exact ⟨_, rfl⟩
  · next content hc =>
    rcases hr : readAt content loc.offset loc.length with _ | other
    · exact ⟨_, rfl⟩
    · by_cases hh : Hash.of other = h
      · exact absurd ⟨content, other, hc, hr, hh⟩ hdead
      · exact ⟨_, by rw [checkRead, if_pos hh]⟩

/-- What `get` returns: a sound handle returns the chunk exactly when it serves it. -/
theorem Store.get_ok_iff (hd : d.Sound) (hi : d.ObjectsIntact) (hs : s.Sound d)
    (hnc : d.NoCollision bytes)
    (hlen : Hash.of bytes ∉ d.objects → bytes.length < 2 ^ 32) :
    (s.get d (Hash.of bytes)).1 = .ok (some bytes) ↔ s.Serves d (Hash.of bytes) := by
  unfold Store.get
  by_cases hp : Hash.of bytes ∈ s.packIndex
  · rw [Store.getFromPackIndex_of_mem hd hs hnc hlen hp]
    exact ⟨fun _ => .inl hp, fun _ => rfl⟩
  rw [Store.getFromPackIndex_of_notMem hp]
  by_cases ho : Hash.of bytes ∈ d.objects
  · simp only [Disk.getObject_of_mem hi hnc ho]
    exact ⟨fun _ => .inr (.inl ho), fun _ => trivial⟩
  simp only [Disk.getObject_of_notMem ho]
  -- what is left after the references: the index, read once more
  have hafter : ((s.indexRead d).getFromPackIndex d (Hash.of bytes) = .ok (some bytes)) ↔
      d.Indexed (Hash.of bytes) := by
    by_cases hi : d.Indexed (Hash.of bytes)
    · exact ⟨fun _ => hi, fun _ => Store.getFromPackIndex_of_mem hd (hs.indexRead hd) hnc hlen
        ((Store.indexRead_mem hs _).mpr (.inr hi))⟩
    · have hno : Hash.of bytes ∉ (s.indexRead d).packIndex := fun hm =>
        ((Store.indexRead_mem hs _).mp hm).elim hp hi
      rw [Store.getFromPackIndex_of_notMem hno]
      exact ⟨fun h => (by cases h), fun h => absurd h hi⟩
  have hrefresh : s.refreshPackIndex d = some (s.indexRead d) := Store.refreshPackIndex_eq hd hs
  cases hl : s.refs.lookup (Hash.of bytes) with
  | none =>
    have hnone : s.getReference d (Hash.of bytes) = .ok none := by
      rw [Store.getReference, hl]
    simp only [hnone, hrefresh]
    rw [hafter, Store.Serves]
    simp [hp, ho, hl]
  | some loc =>
    by_cases hlive : d.RefLive (Hash.of bytes) loc
    · simp only [Store.getReference_of_live hnc hl hlive]
      exact ⟨fun _ => .inr (.inr (.inl ⟨loc, hl, hlive⟩)), fun _ => trivial⟩
    · by_cases hfile : d.sources.lookup loc.path = none
      · have hnone : s.getReference d (Hash.of bytes) = .ok none := by
          simp only [Store.getReference, hl, hfile]
        simp only [hnone, hrefresh]
        rw [hafter, Store.Serves]
        simp [hp, ho, hl, hlive, hfile]
      · obtain ⟨e, he⟩ := Store.getReference_of_dead hl hlive hfile
        simp only [he]
        rw [Store.Serves]
        simp [hp, ho, hl, hlive, hfile]

/-! ## Two handles on one directory -/

/-- A chunk that `get` reads is shorter than 4 GiB unless it lies in the old layout. -/
theorem Store.length_of_get {h : Hash} (ho : h ∉ d.objects)
    (he : (s.get d h).1 = .ok (some bytes)) : bytes.length < 2 ^ 32 := by
  have hpack : ∀ {t : Store}, t.getFromPackIndex d h = .ok (some bytes) →
      bytes.length < 2 ^ 32 := by
    intro t e
    unfold Store.getFromPackIndex at e
    split at e
    · cases e
    · next loc _ =>
      obtain ⟨other, hr, hb, -⟩ := checkRead_ok e
      cases hb
      obtain ⟨content, -, hr⟩ := Option.bind_eq_some_iff.mp hr
      rw [length_of_readAt hr]
      exact loc.length.toNat_lt
  unfold Store.get at he
  split at he
  · cases he
  · next hp => exact hpack (by rw [hp]; exact he)
  · rw [Disk.getObject_of_notMem ho] at he
    dsimp only at he
    split at he
    · cases he
    · next hr =>
      cases he
      unfold Store.getReference at hr
      split at hr
      · cases hr
      · next loc _ =>
        split at hr
        · cases hr
        · cases hr
        · obtain ⟨other, hr, hb, -⟩ := checkRead_ok hr
          cases hb
          rw [length_of_readAt hr]
          exact loc.length.toNat_lt
    · split at he
      · cases he
      · exact hpack he

/-- A handle that serves a chunk says that it has it. -/
theorem Store.has_of_serves (hd : d.Sound) (hs : s.Sound d) {h : Hash} (hserves : s.Serves d h) :
    (s.has d h).1 = true := by
  rcases Store.has_cases d s h with ⟨-, he⟩ | ⟨hno, he⟩
  · rw [he]
  · simp only [Store.holds, Bool.or_eq_false_iff, decide_eq_false_iff_not] at hno
    rw [he, Store.tryRefreshPackIndex_eq hd hs, decide_eq_true_iff, Store.indexRead_mem hs]
    rcases hserves with hp | ho | ⟨loc, hl, -⟩ | ⟨hi, -⟩
    · exact .inl hp
    · exact absurd ho hno.1.2
    · exact absurd (Finmap.mem_of_lookup_eq_some hl) hno.2
    · exact .inr hi

/-! ## Content that is put again -/

/-- The last reference to the hash in the part of `refs.tsv` that the handle has not read. -/
def Store.unreadRef (d : Disk) (s : Store) (h : Hash) : Option RefLoc :=
  (insertAll ∅ (refEntries (d.refsTsv.drop s.refsPos))).lookup h

/-- The handle serves the chunk; or it has no reference to it, and the one it has not read yet, if
there is one, is live. -/
def Store.Recoverable (d : Disk) (s : Store) (h : Hash) : Prop :=
  s.Serves d h ∨ (h ∉ s.refs ∧ ∀ loc, s.unreadRef d h = some loc → d.RefLive h loc)

/-- A `put` that succeeds leaves the source files and the old layout alone, and returns the hash
of the bytes. -/
theorem Store.put_ok {r : Hash × Bool} {d' : Disk} {s' : Store}
    (h : s.put d bytes = (.ok r, d', s')) : r.1 = Hash.of bytes ∧ d'.sources = d.sources ∧
      d'.objects = d.objects := by
  obtain ⟨packs, tail, hd, -⟩ := Store.put_disk d s bytes
  rw [h] at hd
  refine ⟨?_, by rw [show d' = _ from hd], by rw [show d' = _ from hd]⟩
  rcases Store.put_cases d s bytes with ⟨-, he⟩ | ⟨-, -, he⟩ | ⟨-, -, ⟨-, he⟩ | ⟨-, hw⟩⟩
  · rw [h] at he; cases he; rfl
  · rw [h] at he; cases he; rfl
  · rw [h] at he; cases he; rfl
  · rcases hw with ⟨p, d1, -, he⟩ | ⟨id, offset, p, d1, -, he⟩
    · rw [h] at he; cases he
    · rw [h] at he; cases he; rfl

/-- The handle as `put` leaves it on its second look: its index is read, and a hash that it had no
reference to has the one of the part of `refs.tsv` it had not read. -/
theorem Store.recheck_spec (hd : d.Sound) (hs : s.Sound d) {h : Hash} (hno : h ∉ s.refs) :
    (h ∈ ((s.tryRefreshPackIndex d).recheck d).packIndex ↔
        h ∈ (s.tryRefreshPackIndex d).packIndex) ∧
      ((s.tryRefreshPackIndex d).recheck d).refs.lookup h = s.unreadRef d h := by
  rw [Store.recheck_eq hd hs, Store.tryRefreshPackIndex_eq hd hs]
  refine ⟨?_, lookup_insertAll_of_notMem hno⟩
  show h ∈ ((s.indexRead d).indexRead d).packIndex ↔ _
  rw [Store.indexRead_mem (hs.indexRead hd)]
  exact ⟨fun hm => hm.elim id fun hi => (Store.indexRead_mem hs h).mpr (.inr hi), .inl⟩

/-- After a `put` that succeeds the handle serves the chunk exactly when it was recoverable. -/
theorem Store.serves_after_put (hd : d.Sound) (hs : s.Sound d) {r : Hash × Bool} {d' : Disk}
    {s' : Store} (h : s.put d bytes = (.ok r, d', s')) :
    s'.Serves d' (Hash.of bytes) ↔ s.Recoverable d (Hash.of bytes) := by
  rcases Store.put_cases d s bytes with ⟨hh, he⟩ | ⟨hno, hm, he⟩ | ⟨hno, hm, ⟨hh, he⟩ | ⟨hh, hw⟩⟩
  · -- found at once: nothing has changed, and what was found may be a dead reference
    rw [h] at he
    cases he
    refine ⟨.inl, ?_⟩
    rintro (hserves | ⟨hrefs, -⟩)
    · exact hserves
    · simp only [Store.holds, Bool.or_eq_true, decide_eq_true_eq] at hh
      rcases hh with (hp | ho) | hr
      · exact .inl hp
      · exact .inr (.inl ho)
      · exact absurd hr hrefs
  · -- found in the index after a refresh
    rw [h] at he
    cases he
    have hi : d.Indexed (Hash.of bytes) := by
      rw [Store.tryRefreshPackIndex_eq hd hs] at hm
      exact ((hs.indexRead hd).indexed hm)
    simp only [Store.holds, Bool.or_eq_false_iff, decide_eq_false_iff_not] at hno
    exact ⟨fun _ => .inl (.inr (.inr (.inr ⟨hi, fun loc hl =>
      absurd (Finmap.mem_of_lookup_eq_some hl) hno.2⟩))), fun _ => .inl hm⟩
  · -- found under the pack lock, which only a reference read there can be
    rw [h] at he
    cases he
    simp only [Store.holds, Bool.or_eq_false_iff, decide_eq_false_iff_not] at hno
    obtain ⟨hpack, hrefs⟩ := Store.recheck_spec hd hs hno.2
    have hi : ¬ d.Indexed (Hash.of bytes) := fun hi => hm (by
      rw [Store.tryRefreshPackIndex_eq hd hs]
      exact (Store.indexRead_mem hs _).mpr (.inr hi))
    have hmem : Hash.of bytes ∈ ((s.tryRefreshPackIndex d).recheck d).refs := by
      simpa [Store.holds, hpack, hm, hno.1.2] using hh
    obtain ⟨loc, hl⟩ := Finmap.mem_iff.mp hmem
    rw [hrefs] at hl
    simp [Store.Recoverable, Store.Serves, hpack, hm, hno.1.1, hno.1.2, hno.2, hi, hrefs, hl,
      Finmap.lookup_eq_none.mpr hno.2]
  · -- written
    rcases hw with ⟨p, d1, -, he⟩ | ⟨id, offset, p, d1, -, he⟩
    · rw [h] at he
      cases he
    · rw [h] at he
      cases he
      simp only [Store.holds, Bool.or_eq_false_iff, decide_eq_false_iff_not] at hno hh
      obtain ⟨-, hrefs⟩ := Store.recheck_spec hd hs hno.2
      have hnone := Finmap.lookup_eq_none.mpr hh.2
      rw [hrefs] at hnone
      refine ⟨fun _ => .inr ⟨hno.2, fun loc hl => ?_⟩, fun _ => .inl ?_⟩
      · rw [hnone] at hl
        cases hl
      · exact Finmap.mem_insert.mpr (.inl rfl)

end

section

variable [Blake3] [FastCDC] {objects : HashMap Hash Bytes} {sources : HashMap Bytes Source}
  {canonicalize : Bytes → Option Bytes} {calls : List Call} {w : World}

/-- What one handle holds, a sibling serves exactly when its own memory and the index lead to the
chunk: after any history, for any two handles and any chunk that the first of them returns. The
references that others added since the sibling was opened are not among what it looks at. -/
theorem sibling_serves_iff {a b : Store} {h : Hash} {bytes : Bytes}
    (hobjects : ∀ g old, objects.lookup g = some old → Hash.of old = g)
    (hrun : runs World.step ⟨Disk.fresh objects sources canonicalize, []⟩ calls = some w)
    (hb : b ∈ w.handles) (hget : (a.get w.disk h).1 = .ok (some bytes))
    (hnc : w.disk.NoCollision bytes) :
    ((b.has w.disk h).1 = true ∧ (b.get w.disk h).1 = .ok (some bytes)) ↔ b.Serves w.disk h := by
  have hw := World.sound_of_runs (World.sound_fresh hobjects) hrun
  have hsb := hw.handles b hb
  have hh : Hash.of bytes = h := Store.hash_of_get (Prod.ext hget rfl)
  subst hh
  have hiff := Store.get_ok_iff hw.disk hw.objects hsb hnc fun ho => Store.length_of_get ho hget
  constructor
  · exact fun hboth => hiff.mp hboth.2
  · exact fun hserves => ⟨Store.has_of_serves hw.disk hsb hserves, hiff.mpr hserves⟩

end

/-- A fresh directory, and a source file `/f` of the one byte `x`. -/
def freshOfX : World := ⟨Disk.fresh ∅ (Finmap.singleton [47, 102] (.file [120])) some, []⟩

/-- A handle that was opened before another one put the chunk serves it. -/
theorem sibling_serves_put :
    let _ := blake3OfX
    let _ := minFastCDC
    ∃ w a b, runs World.step freshOfX [.open, .open, .put 0 [120]] = some w ∧
      w.handles = [a, b] ∧ (b.get w.disk digestOfX).1 = .ok (some [120]) := by
  let _ := blake3OfX
  let _ := minFastCDC
  obtain ⟨w, a, b, hrun, hhandles, hget, hserves⟩ :
      ∃ w a b, runs World.step freshOfX [.open, .open, .put 0 [120]] = some w ∧
        w.handles = [a, b] ∧ (a.get w.disk digestOfX).1 = .ok (some [120]) ∧
        b.Serves w.disk digestOfX := by
    refine ⟨_, _, _, rfl, rfl, rfl, .inr (.inr (.inr ⟨⟨⟨0, 0, 1⟩, by decide⟩, ?_⟩))⟩
    intro loc hl
    cases hl
  have hb : b ∈ w.handles := hhandles ▸ List.mem_cons_of_mem _ List.mem_cons_self
  refine ⟨w, a, b, hrun, hhandles, ?_⟩
  exact ((sibling_serves_iff (by simp) hrun hb hget fun other _ h => eq_of_digestOfX h).mpr
    hserves).2

/-- The reference that one handle added is unknown to the other. -/
theorem sibling_misses_reference :
    let _ := blake3OfX
    let _ := minFastCDC
    ∃ w a b, runs World.step freshOfX
        [.open, .open, .ingestFileStreaming 0 [47, 102] true] = some w ∧ w.handles = [a, b] ∧
      (a.get w.disk digestOfX).1 = .ok (some [120]) ∧ (b.has w.disk digestOfX).1 = false ∧
      (b.get w.disk digestOfX).1 = .ok none :=
  ⟨_, _, _, rfl, rfl, rfl, rfl, rfl⟩

section

variable [Blake3] [FastCDC] {objects : HashMap Hash Bytes} {sources : HashMap Bytes Source}
  {canonicalize : Bytes → Option Bytes} {calls : List Call} {w : World}

/-- Content that was put is found again exactly when it was recoverable: after any history, with
any changes of the source files in it, for every chunk shorter than 4 GiB. A handle that has only a
reference to the chunk, and one that no longer leads to it, takes the reference for the chunk and
stores nothing. -/
theorem put_then_get_iff {s s' : Store} {d' : Disk} {bytes : Bytes} {r : Hash × Bool}
    (hobjects : ∀ g old, objects.lookup g = some old → Hash.of old = g)
    (hrun : runs World.step ⟨Disk.fresh objects sources canonicalize, []⟩ calls = some w)
    (hs : s ∈ w.handles) (hlen : bytes.length < 2 ^ 32)
    (hput : s.put w.disk bytes = (.ok r, d', s')) (hnc : d'.NoCollision bytes) :
    (s'.get d' r.1).1 = .ok (some bytes) ↔ s.Recoverable w.disk (Hash.of bytes) := by
  have hw := World.sound_of_runs (World.sound_fresh hobjects) hrun
  have hss := hw.handles s hs
  obtain ⟨hext, hs'⟩ := Store.put_sound hw.disk hss bytes
  rw [hput] at hext hs'
  rw [(Store.put_ok hput).1, Store.get_ok_iff (hw.disk.extend hext)
    (fun g b hl => hw.objects g b (hext.objects ▸ hl)) hs' hnc fun _ => hlen]
  exact Store.serves_after_put hw.disk hss hput

end

/-- A chunk that is put into a fresh directory is found again. -/
theorem put_then_get_fresh :
    let _ := blake3OfX
    let _ := minFastCDC
    ∃ w s d' s', runs World.step freshOfX [.open] = some w ∧ w.handles = [s] ∧
      s.put w.disk [120] = (.ok (digestOfX, true), d', s') ∧
      (s'.get d' digestOfX).1 = .ok (some [120]) := by
  let _ := blake3OfX
  let _ := minFastCDC
  refine ⟨_, _, _, _, rfl, rfl, rfl, ?_⟩
  refine (@put_then_get_iff _ _ ∅ (Finmap.singleton [47, 102] (.file [120])) some [.open]
    _ _ _ _ _ _ (by simp) rfl List.mem_cons_self (by decide) rfl
    fun other _ h => eq_of_digestOfX h).mpr ?_
  refine .inr ⟨by decide, fun loc hl => ?_⟩
  cases hl

/-- A chunk that was referenced and whose source file is gone is put, and not found. -/
theorem put_takes_dead_reference :
    let _ := blake3OfX
    let _ := minFastCDC
    ∃ w s d' s', runs World.step freshOfX
        [.open, .ingestFileStreaming 0 [47, 102] true, .edit ∅ some] = some w ∧ w.handles = [s] ∧
      s.put w.disk [120] = (.ok (digestOfX, false), d', s') ∧
      (s'.get d' digestOfX).1 = .ok none :=
  ⟨_, _, _, _, rfl, rfl, rfl, rfl⟩

end Np2ptp
