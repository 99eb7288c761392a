import Np2ptp.Store.Lookup
import Np2ptp.Store.PackIndex

/-!
# Chunks that every handle sees

Without crashes the index is a closed text that lists placed chunks, and every handle has read it up
to its cursor (`seeing`). A chunk that a `put` returned is then served by every handle once all
calls have returned (`put_visible_everywhere`). The one step that can break this is the last of a
`put`: it moves the cursor by the length of its own line, wherever that line is; the cursor may only
pass whole lines of chunks that the handle knows (`Store.MayPass`).
-/

namespace Np2ptp

open Lib

/-! ## Directories that grow -/

/-- What the machine adds to a directory: pack files grow, and whole lines of placed chunks are
added to the index. -/
structure Disk.Grows [Blake3] (d d' : Disk) : Prop where
  adds : d.Extends d'
  refsTsv : d'.refsTsv = d.refsTsv
  sources : d'.sources = d.sources

/-- The handle knows the references that `refs.tsv` lists, and its references are live. -/
structure Store.RefsAgree [Blake3] (d : Disk) (s : Store) : Prop where
  live : ∀ h loc, s.refs.lookup h = some loc → d.RefLive h loc
  known : ∀ h, h ∈ s.refs ↔ ∃ loc, (h, loc) ∈ refEntries d.refsTsv

/-- The references that `refs.tsv` lists are live. -/
def Disk.RefsLive [Blake3] (d : Disk) : Prop := ∀ e ∈ refEntries d.refsTsv, d.RefLive e.1 e.2

/-- The directory lists the chunk in one of the three layouts. -/
def Disk.Lists (d : Disk) (h : Hash) : Prop :=
  d.Indexed h ∨ h ∈ d.objects ∨ ∃ loc, (h, loc) ∈ refEntries d.refsTsv

/-- Beyond the cursor there are `n` bytes of whole lines, of chunks that the handle knows. -/
def Store.MayPass (d : Disk) (s : Store) (n : Nat) : Prop :=
  s.packIndexPos + n ≤ d.index.length ∧ Terminated LF ((d.index.drop s.packIndexPos).take n) ∧
    ∀ e ∈ packEntries ((d.index.drop s.packIndexPos).take n), e.1 ∈ s.packIndex

instance (d : Disk) (s : Store) (n : Nat) : Decidable (s.MayPass d n) :=
  inferInstanceAs (Decidable (_ ∧ _ ∧ _))

section

variable [Blake3] {d d' : Disk} {s : Store}

theorem Disk.Grows.of_packs {packs : HashMap UInt32 Bytes} (h : PacksGrow d.packs packs) :
    d.Grows { d with packs := packs } := ⟨.of_packs h, rfl, rfl⟩

theorem Disk.Grows.refl (d : Disk) : d.Grows d := .of_packs (.refl _)

/-- A line of a placed chunk is added to the index. -/
theorem Disk.Grows.line {bytes : Bytes} {loc : PackLoc} (hp : d.Placed bytes loc)
    (hlen : bytes.length < 2 ^ 32) (hno : Hash.of bytes ∉ d.objects) :
    d.Grows { d with index := d.index ++ packIndexLine (Hash.of bytes) loc } := by
  refine ⟨⟨.refl _, ⟨_, rfl, packIndexLine_terminated _ _, validUtf8_packIndexLine _ _, ?_⟩,
    ⟨[], by simp, terminated_nil, rfl⟩, rfl⟩, rfl, rfl⟩
  intro e he
  rw [packEntries_packIndexLine, List.mem_singleton] at he
  rw [he]
  exact ⟨.inl ⟨bytes, hp.readFromPack hlen, rfl⟩, hno⟩

theorem Disk.Grows.refLive (h : d.Grows d') {g : Hash} {loc : RefLoc} (hl : d.RefLive g loc) :
    d'.RefLive g loc := by
  obtain ⟨content, bytes, hf, hr, hh⟩ := hl
  exact ⟨content, bytes, by rw [h.sources, hf], hr, hh⟩

theorem Disk.Grows.refsLive (h : d.Grows d') (hl : d.RefsLive) : d'.RefsLive := by
  intro e he
  rw [h.refsTsv] at he
  exact h.refLive (hl e he)

theorem Disk.Grows.refsAgree (h : d.Grows d') (hs : s.RefsAgree d) : s.RefsAgree d' :=
  ⟨fun g loc hl => h.refLive (hs.live g loc hl), fun g => by rw [h.refsTsv]; exact hs.known g⟩

theorem Disk.Grows.mem_entries (h : d.Grows d') (hd : d.Sound) {e : Hash × PackLoc}
    (he : e ∈ packEntries d.index) : e ∈ packEntries d'.index := by
  obtain ⟨t, ht, -⟩ := h.adds.index
  rw [ht, packEntries_append hd.indexClosed]
  exact List.mem_append_left _ he

theorem Disk.Grows.lists (h : d.Grows d') (hd : d.Sound) {g : Hash} (hl : d.Lists g) :
    d'.Lists g := by
  rcases hl with ⟨loc, hl⟩ | hl | hl
  · exact .inl ⟨loc, h.mem_entries hd hl⟩
  · exact .inr (.inl (h.adds.objects ▸ hl))
  · exact .inr (.inr (h.refsTsv ▸ hl))

/-- What follows a cursor still follows it. -/
theorem Disk.Grows.prefix_drop (h : d.Grows d') {t : Bytes} {n : Nat}
    (ht : t <+: d.index.drop n) : t <+: d'.index.drop n := by
  obtain ⟨u, hu, -⟩ := h.adds.index
  rw [hu, List.drop_append]
  exact ht.trans (List.prefix_append _ _)

/-! ## Handles -/

/-- A chunk that is listed is served by a sound handle with live references. -/
theorem Store.serves_of_lists (hr : s.RefsAgree d) {h : Hash} (hl : d.Lists h) : s.Serves d h := by
  have href : h ∈ s.refs → s.Serves d h := by
    intro hm
    obtain ⟨loc, hloc⟩ := Finmap.mem_iff.mp hm
    exact .inr (.inr (.inl ⟨loc, hloc, hr.live h loc hloc⟩))
  by_cases hm : h ∈ s.refs
  · exact href hm
  · rcases hl with hi | ho | hrefs
    · refine .inr (.inr (.inr ⟨hi, fun loc hloc => ?_⟩))
      exact absurd (Finmap.mem_of_lookup_eq_some hloc) hm
    · exact .inr (.inl ho)
    · exact absurd ((hr.known h).mpr hrefs) hm

omit [Blake3] in
/-- The entries of a closed stretch behind the cursor are entries of the index. -/
theorem Store.Sound.mem_of_prefix (hs : s.Sound d) {t : Bytes}
    (ht : t <+: d.index.drop s.packIndexPos) (hc : Terminated LF t) {e : Hash × PackLoc}
    (he : e ∈ packEntries t) : e ∈ packEntries d.index := by
  obtain ⟨u, hu⟩ := ht
  refine hs.mem_entries ?_
  rw [← hu, packEntries_append hc]
  exact List.mem_append_left _ he

omit [Blake3] in
/-- Learning the entries of such a stretch. -/
theorem Store.Sound.learn (hs : s.Sound d) {t : Bytes} (ht : t <+: d.index.drop s.packIndexPos)
    (hc : Terminated LF t) :
    Store.Sound d { s with packIndex := insertAll s.packIndex (packEntries t) } := by
  refine ⟨hs.index.mono fun k hk => mem_insertAll.mpr (.inl hk), hs.refs, fun h loc hl => ?_⟩
  rcases lookup_insertAll hl with hl | hl
  · exact hs.listed h loc hl
  · exact hs.mem_of_prefix ht hc hl

omit [Blake3] in
/-- Moving the cursor over such a stretch once its entries are known. -/
theorem Store.Sound.move (hs : s.Sound d) {t : Bytes} (ht : t <+: d.index.drop s.packIndexPos)
    (hc : Terminated LF t) (hknown : ∀ e ∈ packEntries t, e.1 ∈ s.packIndex) :
    Store.Sound d { s with packIndexPos := s.packIndexPos + t.length } :=
  ⟨hs.index.advance ht hc hknown, hs.refs, hs.listed⟩

omit [Blake3] in
/-- Moving the cursor over what it may pass. -/
theorem Store.Sound.pass (hs : s.Sound d) {n : Nat} (hn : s.MayPass d n) :
    Store.Sound d { s with packIndexPos := s.packIndexPos + n } := by
  obtain ⟨hle, hc, hknown⟩ := hn
  have hlen : ((d.index.drop s.packIndexPos).take n).length = n := by
    rw [List.length_take, List.length_drop]
    omega
  have hmove := hs.move (List.take_prefix _ _) hc hknown
  rwa [hlen] at hmove

omit [Blake3] in
/-- A handle may learn an entry of the index. -/
theorem Store.Sound.insert (hs : s.Sound d) {h : Hash} {loc : PackLoc}
    (hl : (h, loc) ∈ packEntries d.index) :
    Store.Sound d { s with packIndex := s.packIndex.insert h loc } := by
  refine ⟨hs.index.mono fun k hk => Finmap.mem_insert.mpr (.inr hk), hs.refs, fun g l hg => ?_⟩
  by_cases he : g = h
  · subst he
    rw [Finmap.lookup_insert, Option.some.injEq] at hg
    exact hg ▸ hl
  · rw [Finmap.lookup_insert_of_ne _ he] at hg
    exact hs.listed g l hg

omit [Blake3] in
theorem Store.Sound.packState (hs : s.Sound d) (p : PackState) :
    Store.Sound d { s with packState := p } := ⟨hs.index, hs.refs, hs.listed⟩

/-- Reading the references keeps a handle in agreement with them. -/
theorem Store.RefsAgree.refsRead (hs : s.Sound d) (hr : s.RefsAgree d)
    (hlive : d.RefsLive) : (s.refsRead d).RefsAgree d := by
  have hmem : ∀ e ∈ refEntries (d.refsTsv.drop s.refsPos), e ∈ refEntries d.refsTsv := by
    intro e he
    have hsplit : refEntries d.refsTsv = _ := hs.refs.entries_eq
    rw [hsplit]
    exact List.mem_append_right _ he
  refine ⟨fun h loc hl => ?_, fun h => ⟨fun hm => ?_, fun hm => ?_⟩⟩
  · rcases lookup_insertAll hl with hl | hl
    · exact hr.live h loc hl
    · exact hlive _ (hmem _ hl)
  · rcases mem_insertAll.mp hm with hm | ⟨loc, hm⟩
    · exact (hr.known h).mp hm
    · exact ⟨loc, hmem _ hm⟩
  · exact mem_insertAll.mpr (.inl ((hr.known h).mpr hm))

/-! ## The outline -/

/-- The thread holds the cursor of its handle, or has a chunk that is listed. -/
def Pc.Seeing (c : Shared) (t : Nat) : Pc → Prop
  | .refreshStat _ | .refreshRead _ => c.handle.posLock = some t
  | .refreshApply _ whole => c.handle.posLock = some t ∧ Terminated LF whole ∧
      whole <+: c.disk.index.drop c.handle.store.packIndexPos
  | .refreshAdvance _ n => c.handle.posLock = some t ∧ ∃ whole : Bytes, n = whole.length ∧
      Terminated LF whole ∧ whole <+: c.disk.index.drop c.handle.store.packIndexPos ∧
      ∀ e ∈ packEntries whole, e.1 ∈ c.handle.store.packIndex
  | .dedup bytes => c.disk.Lists (Hash.of bytes)
  | .recheckRefs bytes | .rotate bytes | .guardWait bytes | .seek bytes | .writing bytes _ _ _ =>
    Hash.of bytes ∉ c.disk.objects
  | .appending bytes loc rest => Hash.of bytes ∉ c.disk.objects ∧
      (rest = [] ∧ (Hash.of bytes, loc) ∈ packEntries c.disk.index ∨
        rest = packIndexLine (Hash.of bytes) loc)
  | .inserting bytes loc | .bumping bytes loc | .unlocking bytes loc =>
    (Hash.of bytes, loc) ∈ packEntries c.disk.index
  | _ => True

/-- What one thread does to the handle that another one can notice. -/
structure Handle.Leaves (u : Nat) (h h' : Handle) : Prop where
  known : ∀ k, k ∈ h.store.packIndex → k ∈ h'.store.packIndex
  cursor : h.posLock = some u →
    h'.posLock = some u ∧ h'.store.packIndexPos = h.store.packIndexPos

omit [Blake3] in
theorem Handle.Leaves.refl (u : Nat) (h : Handle) : h.Leaves u h := ⟨fun _ => id, fun e => ⟨e, rfl⟩⟩

omit [Blake3] in
/-- Who takes, holds or gives back the cursor disturbs nobody else who needs it. -/
theorem Handle.Leaves.of_cursor {t u : Nat} {h h' : Handle}
    (hk : ∀ k, k ∈ h.store.packIndex → k ∈ h'.store.packIndex)
    (hpos : h.posLock = none ∨ h.posLock = some t) (hu : u ≠ t) : h.Leaves u h' := by
  refine ⟨hk, fun e => ?_⟩
  rcases hpos with hp | hp
  · rw [hp] at e
    cases e
  · rw [hp, Option.some.injEq] at e
    exact absurd e.symm hu

theorem Pc.Seeing.stable {c c' : Shared} {t : Nat} {pc : Pc} (hp : pc.Seeing c t)
    (hd : c.disk.Sound) (hg : c.disk.Grows c'.disk) (hl : c.handle.Leaves t c'.handle) :
    pc.Seeing c' t := by
  have hobj : ∀ {g : Hash}, g ∉ c.disk.objects → g ∉ c'.disk.objects := by
    intro g h
    rwa [hg.adds.objects]
  cases pc with
  | refreshStat k => exact (hl.cursor hp).1
  | refreshRead k => exact (hl.cursor hp).1
  | refreshApply k whole =>
    obtain ⟨hlock, hc, hpre⟩ := hp
    obtain ⟨hlock', hpos⟩ := hl.cursor hlock
    exact ⟨hlock', hc, hpos ▸ hg.prefix_drop hpre⟩
  | refreshAdvance k n =>
    obtain ⟨hlock, whole, hn, hc, hpre, hk⟩ := hp
    obtain ⟨hlock', hpos⟩ := hl.cursor hlock
    exact ⟨hlock', whole, hn, hc, hpos ▸ hg.prefix_drop hpre, fun e he => hl.known _ (hk e he)⟩
  | dedup bytes => exact hg.lists hd hp
  | recheckRefs bytes | rotate bytes | guardWait bytes | seek bytes => exact hobj hp
  | writing bytes id offset rest => exact hobj hp
  | appending bytes loc rest =>
    exact ⟨hobj hp.1, hp.2.imp_left fun h => ⟨h.1, hg.mem_entries hd h.2⟩⟩
  | inserting bytes loc | bumping bytes loc | unlocking bytes loc => exact hg.mem_entries hd hp
  | _ => trivial

/-- A handle that is sound and agrees with the references. -/
structure Handle.Sees (d : Disk) (h : Handle) : Prop where
  sound : h.store.Sound d
  refs : h.store.RefsAgree d

/-- A directory in which nothing is torn, and the references are live. -/
structure Disk.Steady (d : Disk) : Prop where
  sound : d.Sound
  objects : d.ObjectsIntact
  refs : d.RefsLive

/-- The handle as it is being opened. -/
def Opening.Seeing (d : Disk) : Opening → Prop
  | .truncate _ | .writeBack _ => False
  | .loadRefs packIndex pos => Follows LF packEntry d.index pos (· ∈ packIndex) ∧
      ∀ h loc, packIndex.lookup h = some loc → (h, loc) ∈ packEntries d.index
  | .scan packIndex pos refs refsPos =>
    ∀ p l l', Handle.Sees d ⟨⟨refs, packIndex, pos, refsPos, p⟩, l, l'⟩
  | _ => True

/-- The outline of a machine without crashes. -/
def seeing : Outline where
  files := Disk.Steady
  handle := Handle.Sees
  thread c _ t pc := pc.Seeing c t ∧ ∀ bytes, pc.chunk = some bytes → bytes.length < 2 ^ 32
  opener d _ _ o := o.Seeing d
  returned d p := d.Lists (Hash.of p.1) ∧ p.1.length < 2 ^ 32

theorem Disk.Steady.grow (h : d.Grows d') (hd : d.Steady) : d'.Steady :=
  ⟨hd.sound.extend h.adds, fun g b hl => hd.objects g b (h.adds.objects ▸ hl), h.refsLive hd.refs⟩

theorem Handle.Sees.grow {h : Handle} (hg : d.Grows d') (hd : d.Sound) (hs : h.Sees d) :
    h.Sees d' := ⟨hs.sound.extend hd hg.adds, hg.refsAgree hs.refs⟩

theorem Opening.Seeing.grow {o : Opening} (hg : d.Grows d') (hd : d.Sound) (ho : o.Seeing d) :
    o.Seeing d' := by
  cases o with
  | truncate | writeBack => exact ho
  | loadRefs packIndex pos =>
    obtain ⟨t, ht, -⟩ := hg.adds.index
    exact ⟨by rw [ht]; exact ho.1.append, fun h loc hl => hg.mem_entries hd (ho.2 h loc hl)⟩
  | scan packIndex pos refs refsPos => exact fun p l l' => (ho p l l').grow hg hd
  | _ => trivial

/-- A directory that grows keeps the outline for other handles. -/
theorem seeing_stable {i : Nat} {guard guard' : Option Owner} (hd : d.Sound) (hg : d.Grows d') :
    seeing.Stable i d guard d' guard' where
  files := Disk.Steady.grow hg
  handle _ hs := hs.grow hg hd
  thread _ _ _ _ _ hp := ⟨hp.1.stable hd hg (.refl _ _), hp.2⟩
  opener _ _ _ ho := ho.grow hg hd
  returned _ hp := ⟨hg.lists hd hp.1, hp.2⟩

/-! ## One step -/

/-- What a step of a thread without a crash is to keep. -/
structure Keeps (t : Nat) (c c' : Shared) (pc : Pc) (puts : List Put) : Prop where
  grows : c.disk.Grows c'.disk
  sees : c'.handle.Sees c'.disk
  self : pc.Seeing c' t
  others : ∀ u, u ≠ t → c.handle.Leaves u c'.handle
  lists : ∀ p ∈ puts, c'.disk.Lists (Hash.of p.1)

variable {c : Shared} {i t : Nat} {pc pc' : Pc} {e : Effect} {puts : List Put}

/-- A step without an effect. -/
theorem Keeps.none (hh : c.handle.Sees c.disk) (hself : pc.Seeing c t)
    (hlists : ∀ p ∈ puts, c.disk.Lists (Hash.of p.1)) : Keeps t c c pc puts :=
  ⟨.refl _, hh, hself, fun _ _ => .refl _ _, hlists⟩

/-- A step that moves the lock of the cursor, and leaves the handle as it is. -/
theorem Keeps.lock {l : Option Nat} (hh : c.handle.Sees c.disk)
    (hpos : c.handle.posLock = .none ∨ c.handle.posLock = some t)
    (hself : pc.Seeing { c with handle := { c.handle with posLock := l } } t) :
    Keeps t c { c with handle := { c.handle with posLock := l } } pc [] :=
  ⟨.refl _, ⟨hh.sound, hh.refs⟩, hself, fun _ => .of_cursor (fun _ => id) hpos, by simp⟩

omit [Blake3] in
theorem Return.ok_seeing [Blake3] (k : Return) : k.ok.Seeing c t ∧ k.failed.Seeing c t := by
  cases k <;> exact ⟨trivial, trivial⟩

/-- The chunk was found in memory or under `objects/`. -/
theorem Keeps.found {j : Job} (hh : c.handle.Sees c.disk) (hl : c.disk.Lists j.hash)
    (hn : some j.found = some (e, pc', puts)) : Keeps t c (e.apply i t c) pc' puts := by
  cases j with
  | has h =>
    cases hn
    exact .none hh trivial (by simp)
  | put bytes =>
    cases hn
    refine .none hh trivial fun p hp => ?_
    cases List.mem_singleton.mp hp
    exact hl

omit [Blake3] in
/-- What a handle knows is listed. -/
theorem Store.Sound.lists (hs : s.Sound d) {h : Hash} (hm : h ∈ s.packIndex) : d.Lists h :=
  .inl (hs.indexed hm)

theorem Store.RefsAgree.lists (hs : s.RefsAgree d) {h : Hash} (hm : h ∈ s.refs) : d.Lists h :=
  .inr (.inr ((hs.known h).mp hm))

/-- A step of `refresh_pack_index` keeps the outline. -/
theorem Keeps.refresh (hh : c.handle.Sees c.disk) (hp : pc.Seeing c t)
    (hpc : ∃ k whole n, pc = .refreshLock k ∨ pc = .refreshStat k ∨ pc = .refreshRead k ∨
      pc = .refreshApply k whole ∨ pc = .refreshAdvance k n)
    (hn : pc.next c = some (e, pc', puts)) : Keeps t c (e.apply i t c) pc' puts := by
  obtain ⟨k, whole, n, rfl | rfl | rfl | rfl | rfl⟩ := hpc
  · simp only [Pc.next] at hn
    split at hn
    · next hfree =>
      cases hn
      exact .lock hh (.inl hfree) rfl
    · cases hn
  · simp only [Pc.next] at hn
    split at hn
    · cases hn
      exact .lock hh (.inr hp) (Return.ok_seeing k).1
    · cases hn
      exact .none hh hp (by simp)
  · simp only [Pc.next] at hn
    split at hn
    · split at hn
      · cases hn
        exact .lock hh (.inr hp) (Return.ok_seeing k).1
      · cases hn
        refine .none hh ⟨hp, complete_terminated _, ?_⟩ (by simp)
        exact ⟨torn LF _, complete_append_torn _⟩
    · cases hn
      exact .lock hh (.inr hp) (Return.ok_seeing k).2
  · cases hn
    obtain ⟨hlock, hc, hpre⟩ := hp
    have hknown : ∀ k, k ∈ c.handle.store.packIndex →
        k ∈ insertAll c.handle.store.packIndex (packEntries whole) :=
      fun k hk => mem_insertAll.mpr (.inl hk)
    exact ⟨.refl _, ⟨hh.sound.learn hpre hc, ⟨hh.refs.live, hh.refs.known⟩⟩,
      ⟨hlock, whole, rfl, hc, hpre, fun e he => mem_insertAll.mpr (.inr ⟨e.2, he⟩)⟩,
      fun u hu => .of_cursor hknown (.inr hlock) hu, by simp⟩
  · cases hn
    obtain ⟨hlock, whole, rfl, hc, hpre, hk⟩ := hp
    exact ⟨.refl _, ⟨hh.sound.move hpre hc hk, ⟨hh.refs.live, hh.refs.known⟩⟩,
      (Return.ok_seeing k).1, fun u hu => .of_cursor (fun _ => id) (.inr hlock) hu, by simp⟩

/-- A step of a `put` that writes keeps the outline, if the cursor passes what it may pass. -/
theorem Keeps.write (hh : c.handle.Sees c.disk) (hp : pc.Seeing c t) (hpc : ¬ pc.Plain)
    (hplaced : pc.Placing c i t)
    (hpass : ∀ bytes loc, pc = .bumping bytes loc →
      c.handle.store.MayPass c.disk (packIndexLine (Hash.of bytes) loc).length)
    (hn : pc.next c = some (e, pc', puts)) : Keeps t c (e.apply i t c) pc' puts := by
  cases pc with
  | rotate bytes =>
    cases hn
    obtain ⟨packs, hd, hgrow⟩ := PackState.rotate_disk c.disk c.handle.store.packState
    simp only [Effect.apply, Shared.setStore, hd]
    have hg := Disk.Grows.of_packs hgrow
    refine ⟨hg, ?_, hp, fun _ _ => ⟨fun _ => id, fun h => ⟨h, rfl⟩⟩, by simp⟩
    exact ⟨⟨hh.sound.index, hh.sound.refs, hh.sound.listed⟩,
      hg.refsAgree ⟨hh.refs.live, hh.refs.known⟩⟩
  | guardWait bytes =>
    simp only [Pc.next] at hn
    split at hn <;> cases hn
    exact ⟨.refl _, hh, hp, fun _ _ => .refl _ _, by simp⟩
  | seek bytes =>
    have hgrow := (Pc.next_placing hplaced hn).2.2.1
    simp only [Pc.next] at hn
    split at hn <;> cases hn
    have hg := Disk.Grows.of_packs hgrow
    exact ⟨hg, ⟨⟨hh.sound.index, hh.sound.refs, hh.sound.listed⟩, hg.refsAgree hh.refs⟩, hp,
      fun _ _ => .refl _ _, by simp⟩
  | writing bytes packId offset rest =>
    simp only [Pc.next] at hn
    split at hn <;> cases hn
    exact ⟨.refl _, ⟨hh.sound.packState _, ⟨hh.refs.live, hh.refs.known⟩⟩, ⟨hp, .inr rfl⟩,
      fun _ _ => ⟨fun _ => id, fun h => ⟨h, rfl⟩⟩, by simp⟩
  | appending bytes loc rest =>
    simp only [Pc.next] at hn
    split at hn
    · next hrest =>
      cases hn
      refine .none hh ?_ (by simp)
      rcases hp.2 with h | h
      · exact h.2
      · exact absurd (h.symm.trans hrest) (by simp [packIndexLine])
    · cases hn
  | inserting bytes loc =>
    cases hn
    have hknown : ∀ k, k ∈ c.handle.store.packIndex →
        k ∈ c.handle.store.packIndex.insert (Hash.of bytes) loc :=
      fun k hk => Finmap.mem_insert.mpr (.inr hk)
    exact ⟨.refl _, ⟨hh.sound.insert hp, ⟨hh.refs.live, hh.refs.known⟩⟩, hp,
      fun _ _ => ⟨hknown, fun h => ⟨h, rfl⟩⟩, by simp⟩
  | bumping bytes loc =>
    simp only [Pc.next] at hn
    split at hn
    · next hfree =>
      cases hn
      exact ⟨.refl _, ⟨hh.sound.pass (hpass _ _ rfl), ⟨hh.refs.live, hh.refs.known⟩⟩, hp,
        fun u hu => .of_cursor (fun _ => id) (.inl hfree) hu, by simp⟩
    · cases hn
  | unlocking bytes loc =>
    cases hn
    refine ⟨.refl _, ⟨hh.sound, hh.refs⟩, trivial, fun _ _ => ⟨fun _ => id, fun h => ⟨h, rfl⟩⟩,
      fun p hm => ?_⟩
    cases List.mem_singleton.mp hm
    exact .inl ⟨loc, hp⟩
  | _ => exact absurd trivial hpc

/-- Every step of a thread keeps the outline, if the cursor passes what it may pass. -/
theorem Keeps.next (hd : c.disk.Steady) (hh : c.handle.Sees c.disk) (hp : pc.Seeing c t)
    (hplaced : pc.Placing c i t)
    (hpass : ∀ bytes loc, pc = .bumping bytes loc →
      c.handle.store.MayPass c.disk (packIndexLine (Hash.of bytes) loc).length)
    (hn : pc.next c = some (e, pc', puts)) : Keeps t c (e.apply i t c) pc' puts := by
  cases pc with
  | idle => cases hn
  | hasPack j =>
    simp only [Pc.next] at hn
    split at hn
    · next hm => exact .found hh (hh.sound.lists hm) hn
    · cases hn
      exact .none hh trivial (by simp)
  | hasObject j =>
    simp only [Pc.next] at hn
    split at hn
    · next hm => exact .found hh (.inr (.inl hm)) hn
    · cases hn
      exact .none hh trivial (by simp)
  | hasRefs j =>
    simp only [Pc.next] at hn
    split at hn
    · next hm => exact .found hh (hh.refs.lists hm) hn
    · cases hn
      exact .none hh trivial (by simp)
  | hasAgain j =>
    simp only [Pc.next] at hn
    split at hn
    · next hm => exact .found hh (hh.sound.lists hm) hn
    · cases j <;> cases hn <;> exact .none hh trivial (by simp)
  | refreshLock k => exact .refresh hh hp ⟨k, [], 0, by simp⟩ hn
  | refreshStat k => exact .refresh hh hp ⟨k, [], 0, by simp⟩ hn
  | refreshRead k => exact .refresh hh hp ⟨k, [], 0, by simp⟩ hn
  | refreshApply k whole => exact .refresh hh hp ⟨k, whole, 0, by simp⟩ hn
  | refreshAdvance k n => exact .refresh hh hp ⟨k, [], n, by simp⟩ hn
  | packLock bytes =>
    simp only [Pc.next] at hn
    split at hn <;> cases hn
    exact ⟨.refl _, ⟨hh.sound, hh.refs⟩, trivial,
      fun _ _ => ⟨fun _ => id, fun h => ⟨h, rfl⟩⟩, by simp⟩
  | putRefs bytes =>
    cases hn
    simp only [Effect.apply, Shared.setStore, Store.tryRefreshRefs_eq hd.sound hh.sound]
    exact ⟨.refl _, ⟨hh.sound.refsRead hd.sound, hh.refs.refsRead hh.sound hd.refs⟩, trivial,
      fun _ _ => ⟨fun _ => id, fun h => ⟨h, rfl⟩⟩, by simp⟩
  | recheckPack bytes =>
    simp only [Pc.next] at hn
    split at hn
    · next hm =>
      cases hn
      exact .none hh (hh.sound.lists hm) (by simp)
    · cases hn
      exact .none hh trivial (by simp)
  | recheckObject bytes =>
    simp only [Pc.next] at hn
    split at hn
    · next hm =>
      cases hn
      exact .none hh (.inr (.inl hm)) (by simp)
    · next hm =>
      cases hn
      exact .none hh hm (by simp)
  | recheckRefs bytes =>
    simp only [Pc.next] at hn
    split at hn
    · next hm =>
      cases hn
      exact .none hh (hh.refs.lists hm) (by simp)
    · cases hn
      exact .none hh hp (by simp)
  | dedup bytes =>
    cases hn
    refine ⟨.refl _, ⟨hh.sound, hh.refs⟩, trivial, fun _ _ => ⟨fun _ => id, fun h => ⟨h, rfl⟩⟩,
      fun p hm => ?_⟩
    cases List.mem_singleton.mp hm
    exact hp
  | rotate | guardWait | seek | writing | appending | inserting | bumping | unlocking =>
    exact .write hh hp (fun h => h) hplaced hpass hn
  | getPack h =>
    simp only [Pc.next] at hn
    split at hn <;> cases hn <;> exact .none hh trivial (by simp)
  | getRead h loc =>
    cases hn
    exact .none hh trivial (by simp)
  | getObject h =>
    simp only [Pc.next] at hn
    split at hn <;> cases hn <;> exact .none hh trivial (by simp)
  | getRef h =>
    simp only [Pc.next] at hn
    split at hn <;> cases hn <;> exact .none hh trivial (by simp)
  | getAgain h =>
    simp only [Pc.next] at hn
    split at hn <;> cases hn <;> exact .none hh trivial (by simp)

/-- A whole line that lands keeps the outline. -/
theorem Keeps.land {n : Nat} (hh : c.handle.Sees c.disk)
    (hp : pc.Seeing c t) (hlen : ∀ bytes, pc.chunk = some bytes → bytes.length < 2 ^ 32)
    (hplaced : pc.Placing c i t) (hwhole : pc.pending.length ≤ n)
    (hd : c.disk.Sound) (hn : pc.land c n = some (e, pc')) :
    Keeps t c (e.apply i t c) pc' [] := by
  have hgrow := (Pc.land_placing hplaced hn).2.2.1
  cases pc with
  | writing bytes packId offset rest =>
    simp only [Pc.land] at hn
    split at hn <;> cases hn
    have hg := Disk.Grows.of_packs hgrow
    exact ⟨hg, ⟨⟨hh.sound.index, hh.sound.refs, hh.sound.listed⟩, hg.refsAgree hh.refs⟩, hp,
      fun _ _ => .refl _ _, by simp⟩
  | appending bytes loc rest =>
    cases hn
    obtain ⟨hno, hrest⟩ := hp
    have hall : rest.take n = rest := List.take_of_length_le hwhole
    have hnil : rest.drop n = [] := List.drop_eq_nil_of_le hwhole
    simp only [Effect.apply, hall, hnil]
    rcases hrest with ⟨rfl, hl⟩ | rfl
    · rw [List.append_nil]
      exact .none hh ⟨hno, .inl ⟨rfl, hl⟩⟩ (by simp)
    · have hg := Disk.Grows.line hplaced (hlen bytes rfl) hno
      refine ⟨hg, Handle.Sees.grow hg hd hh, ⟨hno, .inl ⟨rfl, ?_⟩⟩, fun _ _ => .refl _ _, by simp⟩
      show _ ∈ packEntries (_ ++ _)
      rw [packEntries_append hd.indexClosed, packEntries_packIndexLine]
      exact List.mem_append_right _ (List.mem_singleton.mpr rfl)
  | _ => cases hn

/-- An opening finds nothing to trim, and loads the whole index and all references. -/
theorem Opening.next_seeing {guard guard' : Option Owner} {o : Opening} {slot : Slot}
    (hd : d.Steady) (ho : o.Seeing d) (hn : o.next i d guard = some (d', guard', slot)) :
    d.Grows d' ∧ seeing.slot d' guard' i slot := by
  have hrefs : truncatePartialLine d.refsTsv = some d.refsTsv := by
    rw [truncatePartialLine, if_pos hd.sound.refsText, hd.sound.refsClosed.complete_eq]
  have hfollows : ∀ {ν : Type} {parse : Bytes → Option (Hash × ν)} {log : Bytes},
      Terminated LF log →
      Follows LF parse log log.length (· ∈ insertAll ∅ (entries LF parse log)) := by
    intro ν parse log hc
    refine ⟨Nat.le_refl _, (List.take_length (l := log)).symm ▸ hc, fun e he => ?_⟩
    exact mem_insertAll.mpr (.inr ⟨e.2, (List.take_length (l := log)) ▸ he⟩)
  have hlookup : ∀ {ν : Type} {es : List (Hash × ν)} {h : Hash} {v : ν},
      (insertAll ∅ es).lookup h = some v → (h, v) ∈ es := by
    intro ν es h v hl
    rcases lookup_insertAll hl with hl | hl
    · simp at hl
    · exact hl
  cases o with
  | guardWait =>
    simp only [Opening.next] at hn
    split at hn <;> cases hn
    exact ⟨.refl _, trivial⟩
  | readIndex =>
    simp only [Opening.next, if_pos hd.sound.indexText, if_pos hd.sound.indexClosed] at hn
    cases hn
    exact ⟨.refl _, trivial⟩
  | truncate kept => cases ho
  | writeBack kept => cases ho
  | trimRefs =>
    simp only [Opening.next, hrefs] at hn
    cases hn
    exact ⟨.refl _, trivial⟩
  | release =>
    cases hn
    exact ⟨.refl _, trivial⟩
  | loadIndex =>
    simp only [Opening.next, loadLog, if_pos hd.sound.indexText] at hn
    cases hn
    exact ⟨.refl _, hfollows hd.sound.indexClosed, fun h loc hl => hlookup hl⟩
  | loadRefs packIndex pos =>
    simp only [Opening.next, loadLog, if_pos hd.sound.refsText] at hn
    cases hn
    refine ⟨.refl _, fun p l l' => ⟨⟨ho.1, hfollows hd.sound.refsClosed, ho.2⟩,
      ⟨fun h loc hl => hd.refs _ (hlookup hl), fun h => ?_⟩⟩⟩
    show h ∈ insertAll ∅ _ ↔ _
    rw [mem_insertAll]
    exact ⟨fun hm => hm.resolve_left Finmap.notMem_empty, .inr⟩
  | scan packIndex pos refs refsPos =>
    cases hn
    have hgrow := PacksGrow.insert d.packs (PackState.open d).1.currentId []
    rw [List.append_nil] at hgrow
    have hg := Disk.Grows.of_packs hgrow
    exact ⟨hg, (ho _ _ _).grow hg hd.sound, fun t => ⟨trivial, fun _ h => by cases h⟩⟩

/-! ## Runs -/

/-- The bytes by which the cursor of the handle is about to move past the index line of a `put`. -/
def Pc.passing : Pc → Option Nat
  | .bumping bytes loc => some (packIndexLine (Hash.of bytes) loc).length
  | _ => none

/-- The store of a handle that is open. -/
def Slot.store : Slot → Option Store
  | .live h => some h.store
  | _ => none

/-- No crash and no I/O error; index lines are appended whole; chunks are shorter than 4 GiB; and
where a `put` moves its cursor, it passes whole lines of chunks that the handle knows. -/
def Sys.Calm (sys : Sys) : Action → Prop
  | .call _ _ (.put bytes) => bytes.length < 2 ^ 32
  | .land i t n => (sys.pcs i t).pending.length ≤ n
  | .step i t =>
    ∀ n ∈ (sys.pcs i t).passing, ∀ s ∈ (sys.slots i).store, s.MayPass sys.disk n
  | .fault .. | .tear .. | .crash _ => False
  | _ => True

instance (sys : Sys) : ∀ a, Decidable (sys.Calm a)
  | .call _ _ (.put bytes) => inferInstanceAs (Decidable (bytes.length < 2 ^ 32))
  | .land i t n => inferInstanceAs (Decidable ((sys.pcs i t).pending.length ≤ n))
  | .step i t => inferInstanceAs (Decidable (∀ n ∈ (sys.pcs i t).passing, _))
  | .fault .. | .tear .. | .crash _ => .isFalse id
  | .call _ _ (.has _) | .call _ _ (.get _) | .open _ | .openStep _ => .isTrue trivial

/-- A calm step keeps the outline. -/
theorem seeing_keeps {packs : HashMap UInt32 Bytes} {sys sys' : Sys} {a : Action}
    (hP : (placing packs).Holds sys) (hA : seeing.Holds sys) (hok : sys.Calm a)
    (hs : sys.step a = some sys') : seeing.Holds sys' := by
  have hd := hA.files
  refine Outline.keeps hA hs (fun i _ => trivial) (fun i o d guard slot _ hslot hn => ?_)
    (fun i t r h ha hlive _ => ?_) (fun i t h e pc puts ha hlive hn => ?_)
    (fun i t n h e pc ha hlive hn => ?_) (fun i t n h e pc ha _ _ => ?_)
    (fun i t n h e pc ha _ _ => ?_) (fun i ha => ?_)
  · obtain ⟨hg, hnew⟩ := Opening.next_seeing hd (hA.opener _ _ hslot) hn
    exact ⟨seeing_stable hd.sound hg, hnew⟩
  · subst ha
    refine ⟨.refl _ _ _, fun h => h, fun _ _ _ h => h, ⟨?_, fun bytes hb => ?_⟩, by simp⟩
    · cases r <;> trivial
    · cases r <;> cases hb
      exact hok
  · subst ha
    obtain ⟨hp, hlen⟩ := hA.thread _ _ hlive t
    have hk := Keeps.next (c := sys.view h) hd (hA.handle _ _ hlive) hp (hP.thread _ _ hlive t)
      (fun bytes loc hpc => hok _ (by rw [hpc]; rfl) _ (by rw [hlive]; rfl)) hn
    obtain ⟨hchunk, hputs⟩ := Pc.next_chunk hn
    exact ⟨seeing_stable hd.sound hk.grows, fun _ => hk.sees,
      fun u pc hu hpu => ⟨hpu.1.stable hd.sound hk.grows (hk.others u hu), hpu.2⟩,
      ⟨hk.self, fun b hb => hlen b (hchunk b hb)⟩,
      fun p hm => ⟨hk.lists p hm, hlen _ (hputs p hm)⟩⟩
  · subst ha
    obtain ⟨hp, hlen⟩ := hA.thread _ _ hlive t
    have hk := Keeps.land (c := sys.view h) (hA.handle _ _ hlive) hp hlen
      (hP.thread _ _ hlive t) hok hd.sound hn
    exact ⟨seeing_stable hd.sound hk.grows, fun _ => hk.sees,
      fun u pc hu hpu => ⟨hpu.1.stable hd.sound hk.grows (hk.others u hu), hpu.2⟩,
      ⟨hk.self, fun b hb => hlen b (Pc.land_chunk hn ▸ hb)⟩, by simp⟩
  · subst ha
    cases hok
  · subst ha
    cases hok
  · subst ha
    cases hok

/-- Handles are open and no call runs; the directory and the handles are sound, and every handle has
all the references, which are live. -/
structure Sys.Ready (sys : Sys) : Prop where
  disk : sys.disk.Steady
  handles : ∀ i h, sys.slots i = .live h → h.Sees sys.disk
  settled : ∀ i o, sys.slots i ≠ .opening o
  idle : ∀ i t, sys.pcs i t = .idle
  returned : sys.returned = []

theorem Sys.Ready.placing {sys : Sys} (h : sys.Ready) : (placing sys.disk.packs).Holds sys :=
  ⟨.refl _, fun _ _ _ => trivial, fun i _ _ t => by rw [h.idle i t]; trivial,
    fun i o e => absurd e (h.settled i o), fun i _ t => h.idle i t, by simp [h.returned]⟩

theorem Sys.Ready.seeing {sys : Sys} (h : sys.Ready) : seeing.Holds sys :=
  ⟨h.disk, h.handles, fun i _ _ t => by rw [h.idle i t]; exact ⟨trivial, fun _ e => by cases e⟩,
    fun i o e => absurd e (h.settled i o), fun i _ t => h.idle i t, by simp [h.returned]⟩

/-- Every handle sees what any handle put, after every calm run of any number of handles and
threads: the cursor of a handle stands between two lines that it has read up to, and once a handle
is idle, `get` returns the bytes of every `put` that returned. -/
theorem put_visible_everywhere {sys sys' : Sys} {as : List Action} (hready : sys.Ready)
    (hok : Along Sys.step Sys.Calm sys as) (hr : runs Sys.step sys as = some sys') {i : Nat}
    {h : Handle} (hlive : sys'.slots i = .live h) :
    Follows LF packEntry sys'.disk.index h.store.packIndexPos (· ∈ h.store.packIndex) ∧
      ∀ p ∈ sys'.returned, sys'.disk.NoCollision p.1 →
        (h.store.get sys'.disk (Hash.of p.1)).1 = .ok (some p.1) := by
  obtain ⟨-, hA⟩ := runs_invariant
    (I := fun s => (Np2ptp.placing sys.disk.packs).Holds s ∧ Np2ptp.seeing.Holds s)
    (fun _ _ _ hI hok hs => ⟨placing_keeps hI.1 hs, seeing_keeps hI.1 hI.2 hok hs⟩)
    ⟨hready.placing, hready.seeing⟩ hok hr
  have hsees := hA.handle _ _ hlive
  refine ⟨hsees.sound.index, fun p hp hnc => ?_⟩
  obtain ⟨hl, hlen⟩ := hA.returned p hp
  exact (Store.get_ok_iff hA.files.sound hA.files.objects hsees.sound hnc fun _ => hlen).mpr
    (Store.serves_of_lists hsees.refs hl)

/-- A machine on a steady directory is ready before any handle is opened. -/
theorem Sys.ready_start {d : Disk} (hd : d.Steady) : (Sys.start d).Ready :=
  ⟨hd, by simp [Sys.start], by simp [Sys.start], fun _ _ => rfl, rfl⟩

theorem Disk.steady_fresh : (Disk.fresh ∅ ∅ some).Steady :=
  ⟨(World.sound_fresh (by simp)).disk, by simp [Disk.ObjectsIntact, Disk.fresh],
    by simp [Disk.RefsLive, Disk.fresh, entries, pieces]⟩

end

/-- Two handles on a fresh directory. -/
def twoHandles : List Action := Action.opening 0 7 ++ Action.opening 1 7

/-- The first of them puts a chunk. -/
def putOnFirst : List Action := twoHandles ++ Action.writing 0 0 [120] ++ Action.finishing 0 0

/-- Both put a chunk, and the line of the second handle lands just before that of the first. -/
def putOnBoth : List Action :=
  twoHandles ++ Action.writing 0 0 [120] ++ Action.writing 1 0 (LEAF_TAG :: digestOfX.bytes) ++
    Action.finishing 1 0 ++ Action.finishing 0 0

theorem putOnFirst_calm : Along (@Sys.step blake3OfX) (@Sys.Calm blake3OfX)
    (Sys.start (Disk.fresh ∅ ∅ some)) putOnFirst := by
  decide +kernel

/-- The second handle sees what the first one put. -/
theorem put_visible_on_second :
    let _ := blake3OfX
    ∃ sys h, runs Sys.step (Sys.start (Disk.fresh ∅ ∅ some)) putOnFirst = some sys ∧
      sys.slots 1 = .live h ∧ sys.returned = [([120], some ⟨0, 0, 1⟩)] ∧
      (h.store.get sys.disk (Hash.of [120])).1 = .ok (some [120]) := by
  let _ := blake3OfX
  have hrun : (runs Sys.step (Sys.start (Disk.fresh ∅ ∅ some)) putOnFirst).map
      (fun sys => (sys.returned, (sys.slots 1).store.isSome)) =
        some ([([120], some ⟨0, 0, 1⟩)], true) := by
    decide +kernel
  obtain ⟨sys, hr, hm⟩ := Option.map_eq_some_iff.mp hrun
  obtain ⟨hreturned, hstore⟩ := Prod.mk.inj hm
  cases hlive : sys.slots 1 with
  | closed => simp [hlive, Slot.store] at hstore
  | opening o => simp [hlive, Slot.store] at hstore
  | live h =>
    refine ⟨sys, h, hr, hlive, hreturned, ?_⟩
    refine (put_visible_everywhere (Sys.ready_start Disk.steady_fresh) putOnFirst_calm hr
      hlive).2 ([120], some ⟨0, 0, 1⟩) (by simp [hreturned]) fun other _ he => ?_
    exact eq_of_digestOfX he

/-- The first handle moves its cursor by the length of its own line into the line of the second
handle, and never finds the chunk of the second: without a crash or an error, and after all calls
have returned. -/
theorem put_invisible_on_first :
    let _ := blake3OfX
    (∀ a ∈ putOnBoth, ∀ i t n, a ≠ .fault i t n ∧ a ≠ .tear i t n ∧ a ≠ .crash i) ∧
    ∃ sys h, runs Sys.step (Sys.start (Disk.fresh ∅ ∅ some)) putOnBoth = some sys ∧
      sys.slots 0 = .live h ∧ (∀ i t, sys.pcs i t = .idle) ∧
      (LEAF_TAG :: digestOfX.bytes, some ⟨0, 1, 33⟩) ∈ sys.returned ∧
      (h.store.get sys.disk (Hash.of (LEAF_TAG :: digestOfX.bytes))).1 = .ok none := by
  let _ := blake3OfX
  have hrun : (runs Sys.step (Sys.start (Disk.fresh ∅ ∅ some)) putOnBoth).map (fun sys =>
      (sys.returned, (sys.pcs 0 0).isIdle, (sys.pcs 1 0).isIdle)) =
        some ([(LEAF_TAG :: digestOfX.bytes, some ⟨0, 1, 33⟩), ([120], some ⟨0, 0, 1⟩)],
          true, true) := by
    decide +kernel
  have hget : (runs Sys.step (Sys.start (Disk.fresh ∅ ∅ some)) putOnBoth).map (fun sys =>
      (sys.slots 0).store.map fun s =>
        (s.get sys.disk (Hash.of (LEAF_TAG :: digestOfX.bytes))).1.toOption) =
        some (some (some none)) := by
    decide +kernel
  refine ⟨by simp [putOnBoth, twoHandles, Action.opening, Action.writing, Action.finishing], ?_⟩
  obtain ⟨sys, hr, hm⟩ := Option.map_eq_some_iff.mp hrun
  simp only [Prod.mk.injEq] at hm
  obtain ⟨hreturned, hfirst, hsecond⟩ := hm
  simp only [hr, Option.map_some, Option.some.injEq] at hget
  have hidle : ∀ {pc : Pc}, pc.isIdle = true → pc = .idle := by
    intro pc h
    cases pc with
    | idle => rfl
    | _ => cases h
  cases hlive : sys.slots 0 with
  | closed => simp [hlive, Slot.store] at hget
  | opening o => simp [hlive, Slot.store] at hget
  | live h =>
    refine ⟨sys, h, hr, hlive, fun i t => ?_, by simp [hreturned], ?_⟩
    · by_cases hit : (i, t) = (0, 0) ∨ (i, t) = (1, 0)
      · rcases hit with h0 | h1
        · cases h0
          exact hidle hfirst
        · cases h1
          exact hidle hsecond
      · refine Sys.idle_of_uncalled rfl (fun a ha r e => ?_) hr
        subst e
        simp only [Prod.mk.injEq, not_or] at hit
        simp [putOnBoth, twoHandles, Action.opening, Action.writing, Action.finishing] at ha
        rcases ha with ⟨hi, ht, -⟩ | ⟨hi, ht, -⟩
        · exact hit.1 ⟨hi, ht⟩
        · exact hit.2 ⟨hi, ht⟩
    · simp only [hlive, Slot.store, Option.map_some, Option.some.injEq] at hget
      cases hg : (h.store.get sys.disk (Hash.of (LEAF_TAG :: digestOfX.bytes))).1 with
      | error e => simp [hg, Except.toOption] at hget
      | ok r =>
        rw [hg] at hget
        cases hget
        rfl

end Np2ptp
