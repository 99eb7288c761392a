import Np2ptp.Store.IngestExport

/-!
# A handle on a whole directory

Where the references are live and the lines of the index lead to their chunks, having, serving and
reading a chunk are one (`Store.Whole.has_iff`, `Store.Whole.reads`). Every call keeps it so and
takes no chunk away, its own handle's or another's: a read, a `put` of less than 4 GiB, an opening,
an ingest that copies its files (`Store.Copied`). What a node serves from and what a download writes
to are such handles, and between them stands one directory.
-/

namespace Np2ptp

open Lib

section

variable [Blake3] {d d' : Disk} {s s' : Store} {h : Hash}

/-- A sound handle on a directory in which nothing is torn, dead or too long for its line. -/
structure Store.Whole (d : Disk) (s : Store) : Prop where
  steady : d.Steady
  lines : d.LinesRead
  sound : s.Sound d
  noted : s.Noted d

/-- What a handle says it has is what it has. -/
theorem Store.Whole.has_iff (hw : s.Whole d) : (s.has d h).1 = true ↔ s.Has d h :=
  Store.has_iff hw.steady.sound hw.sound

theorem Store.Whole.serves (hw : s.Whole d) (hh : s.Has d h) : s.Serves d h :=
  Store.serves_of_has hw.steady.refs hw.noted hh

/-- What a handle has it reads. -/
theorem Store.Whole.reads (hw : s.Whole d) (hh : s.Has d h) : s.Reads d h :=
  (Store.reads_iff hw.steady.sound hw.steady.objects hw.sound hw.lines).mpr (hw.serves hh)

/-- What a handle serves it has. -/
theorem Store.Sound.has_of_serves (hs : s.Sound d) (hh : s.Serves d h) : s.Has d h := by
  rcases hh with hp | ho | ⟨loc, hl, -⟩ | ⟨hi, -⟩
  · exact .inr (.inr (hs.indexed hp))
  · exact .inr (.inl ho)
  · exact .inl (Finmap.mem_of_lookup_eq_some hl)
  · exact .inr (.inr hi)

/-- The handle after a call that is no write. -/
structure Store.Kept (d : Disk) (s s' : Store) : Prop where
  whole : s'.Whole d
  has : ∀ h, s.Has d h → s'.Has d h

theorem Store.Whole.kept (hw : s.Whole d) : Store.Kept d s s := ⟨hw, fun _ => id⟩

theorem Store.Kept.trans {s'' : Store} (h : Store.Kept d s s') (h' : Store.Kept d s' s'') :
    Store.Kept d s s'' :=
  ⟨h'.whole, fun g hg => h'.has g (h.has g hg)⟩

theorem Store.Whole.get (hw : s.Whole d) (h : Hash) : Store.Kept d s (s.get d h).2 := by
  have hr : Retains (d, s) (d, (s.get d h).2) :=
    Prim.Live.retains (p := .get h) trivial hw.steady hw.sound hw.noted
  exact ⟨⟨hr.disk, hw.lines, hr.sound, hr.noted⟩, hr.has⟩

theorem Store.Whole.has (hw : s.Whole d) (h : Hash) : Store.Kept d s (s.has d h).2 := by
  have hr : Retains (d, s) (d, (s.has d h).2) :=
    Prim.Live.retains (p := .has h) trivial hw.steady hw.sound hw.noted
  exact ⟨⟨hr.disk, hw.lines, hr.sound, hr.noted⟩, hr.has⟩

/-! ## Writing -/

/-- What a handle has not read of the references is live as well. -/
theorem Store.Whole.refLive_of_unread (hw : s.Whole d) {loc : RefLoc}
    (hl : s.unreadRef d h = some loc) : d.RefLive h loc := by
  refine hw.steady.refs (h, loc) ?_
  rcases lookup_insertAll hl with hl | hl
  · cases hl
  · have hsplit : refEntries d.refsTsv = _ := hw.sound.refs.entries_eq
    rw [hsplit]
    exact List.mem_append_right _ hl

/-- A put of less than 4 GiB is safe. -/
theorem Store.Whole.putSafe (hw : s.Whole d) {bytes : Bytes} (hlen : bytes.length < 2 ^ 32) :
    s.PutSafe d bytes := by
  refine ⟨hlen, ?_, fun g loc _ hl => .inr (.inr (hw.refLive_of_unread hl))⟩
  by_cases hr : Hash.of bytes ∈ s.refs
  · exact .inl (hw.serves (.inl hr))
  · exact .inr ⟨hr, fun loc hl => hw.refLive_of_unread hl⟩

/-- A put leaves a whole handle, with every chunk that it had, and leaves every other handle whole,
with every chunk that it had. -/
theorem Store.Whole.put (hw : s.Whole d) {bytes : Bytes} (hlen : bytes.length < 2 ^ 32)
    {r : Except StoreError (Hash × Bool)} (hput : s.put d bytes = (r, d', s')) :
    s'.Whole d' ∧ (∀ g, s.Has d g → s'.Has d' g) ∧
      ∀ t : Store, t.Whole d → t.Whole d' ∧ ∀ g, t.Has d g → t.Has d' g := by
  have hr : Retains (d, s) (d', s') := by
    have h : Retains (d, s) (s.put d bytes).2 :=
      Prim.Live.retains (p := .put bytes) trivial hw.steady hw.sound hw.noted
    rwa [hput] at h
  have hlines := hw.lines.put hw.steady.sound hlen hput
  refine ⟨⟨hr.disk, hlines, hr.sound, hr.noted⟩, hr.has, fun t ht => ?_⟩
  obtain ⟨hts, htn, hth⟩ := hr.others t ht.sound ht.noted
  exact ⟨⟨hr.disk, hlines, hts, htn⟩, hth⟩

/-- What was put with success the handle has. -/
theorem Store.Whole.has_of_put (hw : s.Whole d) {bytes : Bytes} (hlen : bytes.length < 2 ^ 32)
    {r : Hash × Bool} (hput : s.put d bytes = (.ok r, d', s')) : s'.Has d' (Hash.of bytes) :=
  (hw.put hlen hput).1.sound.has_of_holds (Store.holds_of_put hput)

/-- What files that are copied into a store leave: every handle is whole and has what it had, and
no reference is added. -/
structure Store.Copied (a b : Disk × Store) : Prop where
  whole : b.2.Whole b.1
  refs : b.1.refsTsv = a.1.refsTsv
  others : ∀ t : Store, t.Whole a.1 → t.Whole b.1 ∧ ∀ g, t.Has a.1 g → t.Has b.1 g

theorem Store.Copied.refl (hw : s.Whole d) : Store.Copied (d, s) (d, s) :=
  ⟨hw, rfl, fun _ ht => ⟨ht, fun _ => id⟩⟩

theorem Store.Copied.trans {a b c : Disk × Store} (h : Store.Copied a b) (h' : Store.Copied b c) :
    Store.Copied a c := by
  refine ⟨h'.whole, h'.refs.trans h.refs, fun t ht => ?_⟩
  obtain ⟨hwhole, hhas⟩ := h.others t ht
  obtain ⟨hwhole', hhas'⟩ := h'.others t hwhole
  exact ⟨hwhole', fun g hg => hhas' g (hhas g hg)⟩

theorem Store.Copied.put (hw : s.Whole d) {bytes : Bytes} (hlen : bytes.length < 2 ^ 32) :
    Store.Copied (d, s) (s.put d bytes).2 := by
  obtain ⟨packs, tail, hdisk, -⟩ := Store.put_disk d s bytes
  obtain ⟨hwhole, -, hothers⟩ := hw.put hlen rfl
  exact ⟨hwhole, by rw [hdisk], hothers⟩

theorem Store.Copied.ingestPieces : ∀ {pieces : List Bytes} {offset : Nat} {refs : List ChunkRef}
    {d : Disk} {s : Store}, s.Whole d → (∀ p ∈ pieces, p.length ≤ MAX_CHUNK) →
    Store.Copied (d, s) (s.ingestPieces d none pieces offset refs).2
  | [], _, _, _, _, hw, _ => .refl hw
  | data :: rest, offset, refs, d, s, hw, hle => by
    have hlen : data.length < 2 ^ 32 := by
      have hmax := hle data List.mem_cons_self
      rw [MAX_CHUNK] at hmax
      omega
    have hput := Store.Copied.put hw hlen
    rw [Store.ingestPieces]
    dsimp only
    rcases he : s.put d data with ⟨e | ⟨hash, new⟩, d', s'⟩
    · rw [he] at hput
      exact hput
    · rw [he] at hput
      exact hput.trans (Store.Copied.ingestPieces hput.whole fun p hp =>
        hle p (List.mem_cons_of_mem _ hp))

theorem Store.Copied.ingestFileStreaming [FastCDC] (hw : s.Whole d) (path : Bytes) :
    Store.Copied (d, s) (s.ingestFileStreaming d path false).2 := by
  simp only [Store.ingestFileStreaming, Bool.false_eq_true, false_and, if_false]
  split
  · next content _ =>
    exact Store.Copied.ingestPieces hw (FastCDC.stream.length_le content)
  · exact .refl hw

theorem Store.Copied.ingestDiskFiles [FastCDC] (onDisk : List (Text × Bytes)) :
    ∀ {d : Disk} {s : Store} {b : Ingesting}, s.Whole d →
      Store.Copied (d, s) (s.ingestDiskFiles d false onDisk b).2 := by
  induction onDisk with
  | nil => exact fun hw => .refl hw
  | cons f rest ih =>
    intro d s b hw
    have hfile := Store.Copied.ingestFileStreaming hw f.2
    rw [Store.ingestDiskFiles]
    rcases he : s.ingestFileStreaming d f.2 false with ⟨e | ⟨refs, size⟩, d', s'⟩
    · rw [he] at hfile
      exact hfile
    · rw [he] at hfile
      exact hfile.trans (ih hfile.whole)

/-- Files that are copied leave the store whole for every handle. -/
theorem Store.Copied.ingestTreeFiles [FastCDC] (hw : s.Whole d) (onDisk : List (Text × Bytes))
    (name : Option Text) : Store.Copied (d, s) (s.ingestTreeFiles d onDisk name false).2 := by
  have hfiles := Store.Copied.ingestDiskFiles onDisk (b := ⟨[], [], 0⟩) hw
  rw [Store.ingestTreeFiles]
  rcases he : s.ingestDiskFiles d false onDisk ⟨[], [], 0⟩ with ⟨e | b, d', s'⟩
  · rw [he] at hfiles
    exact hfiles
  · rw [he] at hfiles
    exact hfiles

omit [Blake3] in
/-- A handle that knows all references has what another one has. -/
theorem Store.Has.of_refs {t : Store} (hn : s.Noted d) (hh : s.Has d h)
    (hrefs : ∀ e ∈ refEntries d.refsTsv, e.1 ∈ t.refs) : t.Has d h := by
  rcases hh with hr | ho
  · obtain ⟨loc, hl⟩ := Finmap.mem_iff.mp hr
    exact .inl (hrefs _ (hn h loc hl))
  · exact .inr ho

/-! ## Opening -/

/-- What opening a store leaves of its directory, and the handle. -/
structure Store.Opened (d : Disk) (t : Store) (d' : Disk) : Prop where
  steady : d'.Steady
  sound : t.Sound d'
  noted : t.Noted d'
  has : ∀ g, d.Lists g → t.Has d' g
  sources : d'.sources = d.sources
  canonicalize : d'.canonicalize = d.canonicalize
  index : d'.index = d.index
  packs : PacksGrow d.packs d'.packs
  /-- An empty pack file may be new. -/
  contents : ∀ id, (d'.packs.lookup id).getD [] = (d.packs.lookup id).getD []

/-- Opening a steady directory succeeds, and the handle has every chunk that is listed. -/
theorem Disk.Steady.open (hd : d.Steady) :
    ∃ t d', Store.open d = (.ok t, d') ∧ Store.Opened d t d' := by
  obtain ⟨t, d', he, hdisk, hext, ht, -, hrefs⟩ := Store.open_sound hd.sound
  have htsv : d'.refsTsv = d.refsTsv := by rw [hdisk]
  have hsources : d'.sources = d.sources := by rw [hdisk]
  have hopened : d' = (PackState.open d).2 := by
    have hopen := Store.open_eq hd.sound.indexText hd.sound.indexClosed hd.sound.refsText
      hd.sound.refsClosed
    exact (Prod.mk.inj (he.symm.trans hopen)).2
  refine ⟨t, d', he, ⟨hd.sound.extend hext, fun g b hl => hd.objects g b (hext.objects ▸ hl), ?_⟩,
    ht, ?_, ?_, hsources, by rw [hdisk], by rw [hdisk], hext.packs, ?_⟩
  · intro e hmem
    rw [htsv] at hmem
    exact (hd.refs e hmem).congr hsources
  · intro g loc hl
    rw [hrefs] at hl
    rw [htsv]
    rcases lookup_insertAll hl with hl | hl
    · cases hl
    · exact hl
  · intro g hg
    rcases hg with hi | ho | hr
    · exact .inr (.inr (hext.indexed hd.sound hi))
    · exact .inr (.inl (hext.objects ▸ ho))
    · refine .inl ?_
      rw [hrefs]
      exact mem_insertAll.mpr (.inr hr)
  · intro id
    rw [hopened]
    show ((d.packs.insert (PackState.open d).1.currentId
      ((d.packs.lookup (PackState.open d).1.currentId).getD [])).lookup id).getD [] = _
    by_cases hid : id = (PackState.open d).1.currentId
    · rw [hid, Finmap.lookup_insert]
      rfl
    · rw [Finmap.lookup_insert_of_ne _ hid]

/-- What is opened is whole if the lines of the index lead to their chunks. -/
theorem Store.Opened.whole (h : Store.Opened d s d') (hlines : d.LinesRead) : s.Whole d' := by
  refine ⟨h.steady, fun e hmem => ?_, h.sound, h.noted⟩
  rw [h.index] at hmem
  obtain ⟨bytes, hread, hhash⟩ := hlines e hmem
  exact ⟨bytes, h.packs.readFromPack hread, hhash⟩

/-- A handle that is opened is whole, and has every chunk that another handle has. -/
theorem Store.Whole.open (hw : s.Whole d) : ∃ t d', Store.open d = (.ok t, d') ∧ t.Whole d' ∧
    d'.sources = d.sources ∧ ∀ g, s.Has d g → t.Has d' g := by
  obtain ⟨t, d', he, h⟩ := hw.steady.open
  exact ⟨t, d', he, h.whole hw.lines, h.sources, fun g hg => h.has g (hw.noted.lists hg)⟩

/-! ## Exporting -/

/-- The streaming export of chunks that the handle has succeeds. -/
theorem Store.Whole.exportChunks {m : Manifest} : ∀ {chunks : List ChunkRef} {i : Nat} {w : Bytes}
    {s : Store}, s.Whole d → chunks <+: m.chunks.drop i → (∀ c ∈ chunks, s.Has d c.hash) →
    ∃ w' s', Store.exportChunks d m chunks i w s = (.ok (), w', s')
  | [], _, w, s, _, _, _ => ⟨w, s, rfl⟩
  | cref :: chunks, i, w, s, hw, hpre, hhas => by
    obtain ⟨bytes, hread⟩ := hw.reads (hhas cref List.mem_cons_self)
    have hkept := hw.get cref.hash
    rcases hg : s.get d cref.hash with ⟨r, s₁⟩
    rw [hg] at hread hkept
    obtain rfl : r = .ok (some bytes) := hread
    obtain ⟨after, hafter⟩ := hpre
    have hc : m.chunks[i]? = some cref := by
      rw [← List.head?_drop, ← hafter]
      rfl
    have hrest : chunks <+: m.chunks.drop (i + 1) := by
      refine ⟨after, ?_⟩
      rw [← List.tail_drop, ← hafter]
      rfl
    have hok : m.chunkHashOk i bytes = true := by
      rw [Manifest.chunkHashOk, hc]
      exact beq_iff_eq.mpr (Store.hash_of_get hg)
    rw [Store.exportChunks, hg]
    dsimp only
    rw [if_pos hok]
    exact Store.Whole.exportChunks hkept.whole hrest fun c hc =>
      hkept.has _ (hhas c (List.mem_cons_of_mem _ hc))

/-- A handle that has all chunks of a manifest exports it. -/
theorem Store.Whole.exportTo {m : Manifest} (hw : s.Whole d) (hcons : m.rootIsConsistent = true)
    (hhas : ∀ h ∈ m.hashes, s.Has d h) : ∃ w s', Store.exportTo d s m = (.ok (), w, s') := by
  rw [Store.exportTo, if_pos hcons]
  exact hw.exportChunks (List.prefix_refl _) fun c hc => hhas _ (List.mem_map_of_mem hc)

/-- `export_tree` only reads. -/
theorem Store.Whole.exportTree (hw : s.Whole d) (m : Manifest) :
    Store.Kept d s (s.exportTree d m).2 := by
  have hfetch : ∀ (t : Store × Option StoreError) (h : Hash), Store.Kept d s t.1 →
      Store.Kept d s (Store.fetch d t h).2.1 := by
    rintro ⟨t, err⟩ h ht
    have hget := ht.trans (ht.whole.get h)
    rw [Store.fetch]
    rcases hg : t.get d h with ⟨_ | opt, t'⟩
    · rwa [hg] at hget
    · rwa [hg] at hget
  have hkept := Manifest.reconstructFiles_keeps (m := m) (I := fun t => Store.Kept d s t.1) hfetch
    (s := (s, none)) hw.kept
  rw [Store.exportTree]
  rcases hr : m.reconstructFiles (Store.fetch d) (s, none) with ⟨_ | out, t, _ | e⟩
  all_goals
    rw [hr] at hkept
    exact hkept

/-! ## An empty directory -/

/-- A handle on an empty directory is whole. -/
theorem Store.whole_fresh {sources : HashMap Bytes Source}
    {canonicalize : Bytes → Option Bytes} :
    Store.fresh.Whole (Disk.fresh ∅ sources canonicalize) where
  steady := ⟨(World.sound_fresh (by simp)).disk, by simp [Disk.ObjectsIntact, Disk.fresh],
    by simp [Disk.RefsLive, Disk.fresh, entries, pieces]⟩
  lines := by simp [Disk.LinesRead, Disk.fresh, entries, pieces]
  sound := Store.sound_fresh
  noted := by simp [Store.Noted, Store.fresh]

instance (d : Disk) : Decidable d.LinesRead :=
  decidable_of_iff (∀ e ∈ packEntries d.index, (d.readFromPack e.2).map Hash.of = some e.1)
    (forall₂_congr fun _ _ => Option.map_eq_some_iff)

/-- The one-byte content `x` is put into a fresh store. -/
def seedOfX : Disk × Store := (Store.fresh.put (Disk.fresh ∅ ∅ some) [120]).2

end

end Np2ptp
