import Np2ptp.Core.RoundTrip
import Np2ptp.Store.Crash
import Np2ptp.Store.IngestLaws
import Np2ptp.Store.Readable
import Np2ptp.Store.Visibility

/-!
# What was ingested is exported

As long as the source files that are referenced stay as they are, a handle serves every chunk that
it says it has (`Store.serves_of_has`), and no call makes it say less (`World.step_lively`). So a
tree that was ingested is exported as it was, right away and after any further calls, by the handle
that ingested it and by every handle that is opened later (`ingest_then_export`). A sibling that was
open before may miss chunks that are only referenced, and is not promised anything.
-/

namespace Np2ptp

open Lib

/-! ## Having and serving -/

/-- What `has` reports. -/
def Store.Has (d : Disk) (s : Store) (h : Hash) : Prop := h ∈ s.refs ∨ h ∈ d.objects ∨ d.Indexed h

/-- The references in memory are lines of `refs.tsv`. -/
def Store.Noted (d : Disk) (s : Store) : Prop :=
  ∀ h loc, s.refs.lookup h = some loc → (h, loc) ∈ refEntries d.refsTsv

theorem Store.Noted.lists {d : Disk} {s : Store} (hn : s.Noted d) {h : Hash} (hh : s.Has d h) :
    d.Lists h := by
  rcases hh with hr | ho | hi
  · obtain ⟨loc, hl⟩ := Finmap.mem_iff.mp hr
    exact .inr (.inr ⟨loc, hn h loc hl⟩)
  · exact .inr (.inl ho)
  · exact .inl hi

section

variable [Blake3] {d d' : Disk} {s s' : Store}

/-- A handle serves what it has where the references are live. -/
theorem Store.serves_of_has (hd : d.RefsLive) (hn : s.Noted d) {h : Hash} (hh : s.Has d h) :
    s.Serves d h := by
  by_cases hr : h ∈ s.refs
  · obtain ⟨loc, hl⟩ := Finmap.mem_iff.mp hr
    exact .inr (.inr (.inl ⟨loc, hl, hd _ (hn h loc hl)⟩))
  · rcases hh with hr' | ho | hi
    · exact absurd hr' hr
    · exact .inr (.inl ho)
    · exact .inr (.inr (.inr ⟨hi, fun loc hl => absurd (Finmap.mem_of_lookup_eq_some hl) hr⟩))

omit [Blake3] in
theorem Store.Sound.has_of_holds (hs : s.Sound d) {h : Hash} (hh : s.holds d h = true) :
    s.Has d h := by
  simp only [Store.holds, Bool.or_eq_true, decide_eq_true_eq] at hh
  rcases hh with (hp | ho) | hr
  · exact .inr (.inr (hs.indexed hp))
  · exact .inr (.inl ho)
  · exact .inl hr

theorem Disk.Extends.indexed (hd : d.Sound) (h : d.Extends d') {g : Hash} (hi : d.Indexed g) :
    d'.Indexed g := by
  obtain ⟨loc, hl⟩ := hi
  obtain ⟨t, ht, -⟩ := h.index
  refine ⟨loc, ?_⟩
  rw [ht, packEntries_append hd.indexClosed]
  exact List.mem_append_left _ hl

theorem Disk.Extends.refEntries (hd : d.Sound) (h : d.Extends d') :
    refEntries d.refsTsv ⊆ refEntries d'.refsTsv := by
  obtain ⟨t, ht, -⟩ := h.refs
  rw [ht, refEntries_append hd.refsClosed]
  exact List.subset_append_left _ _

theorem Disk.Extends.lists (hd : d.Sound) (h : d.Extends d') {g : Hash} (hl : d.Lists g) :
    d'.Lists g := by
  rcases hl with hi | ho | ⟨loc, hr⟩
  · exact .inl (h.indexed hd hi)
  · exact .inr (.inl (h.objects ▸ ho))
  · exact .inr (.inr ⟨loc, h.refEntries hd hr⟩)

/-- A directory that grows takes nothing away from a handle that does not change. -/
theorem Store.Has.extend (hd : d.Sound) (h : d.Extends d') {g : Hash} (hh : s.Has d g) :
    s.Has d' g := by
  rcases hh with hr | ho | hi
  · exact .inl hr
  · exact .inr (.inl (h.objects ▸ ho))
  · exact .inr (.inr (h.indexed hd hi))

theorem Disk.RefLive.congr (h : d'.sources = d.sources) {g : Hash} {loc : RefLoc}
    (hl : d.RefLive g loc) : d'.RefLive g loc := by
  obtain ⟨content, bytes, hfile, hread, hhash⟩ := hl
  exact ⟨content, bytes, by rw [h, hfile], hread, hhash⟩

/-! ## One call -/

/-- A reference that the call adds is live, and its path can be written down. -/
def Prim.Live (d : Disk) : Prim → Prop
  | .addReference h source offset length =>
    Np2ptp.LineSafe source ∧ d.RefLive h ⟨source, offset, length⟩
  | _ => True

theorem Prim.Live.congr (h : d'.sources = d.sources) {p : Prim} (hp : p.Live d) : p.Live d' := by
  cases p with
  | addReference g source offset length => exact ⟨hp.1, hp.2.congr h⟩
  | _ => trivial

/-- What calls of that kind keep: the directory stays steady, their handle keeps what it has, and
every other handle does too. -/
structure Retains (a b : Disk × Store) : Prop where
  disk : b.1.Steady
  sound : b.2.Sound b.1
  noted : b.2.Noted b.1
  has : ∀ h, a.2.Has a.1 h → b.2.Has b.1 h
  lists : ∀ h, a.1.Lists h → b.1.Lists h
  others : ∀ t : Store, t.Sound a.1 → t.Noted a.1 → t.Sound b.1 ∧ t.Noted b.1 ∧
    ∀ h, t.Has a.1 h → t.Has b.1 h

theorem Retains.refl (hd : d.Steady) (hs : s.Sound d) (hn : s.Noted d) : Retains (d, s) (d, s) :=
  ⟨hd, hs, hn, fun _ => id, fun _ => id, fun _ ht hn => ⟨ht, hn, fun _ => id⟩⟩

theorem Retains.trans {a b c : Disk × Store} (h : Retains a b) (h' : Retains b c) :
    Retains a c where
  disk := h'.disk
  sound := h'.sound
  noted := h'.noted
  has g hg := h'.has g (h.has g hg)
  lists g hg := h'.lists g (h.lists g hg)
  others t ht hn := by
    obtain ⟨ht₁, hn₁, hhas₁⟩ := h.others t ht hn
    obtain ⟨ht₂, hn₂, hhas₂⟩ := h'.others t ht₁ hn₁
    exact ⟨ht₂, hn₂, fun g hg => hhas₂ g (hhas₁ g hg)⟩

/-- What a call needs to be shown of, besides the directory that it extends. -/
theorem Retains.of_extends (hd : d.Steady) (h : d.Extends d') (hlive : d'.RefsLive)
    (hs : s'.Sound d') (hn : s'.Noted d') (hrefs : ∀ h ∈ s.refs, h ∈ s'.refs) :
    Retains (d, s) (d', s') where
  disk := ⟨hd.sound.extend h, fun g b hl => hd.objects g b (h.objects ▸ hl), hlive⟩
  sound := hs
  noted := hn
  has g hg := by
    rcases hg with hr | ho | hi
    · exact .inl (hrefs g hr)
    · exact .inr (.inl (h.objects ▸ ho))
    · exact .inr (.inr (h.indexed hd.sound hi))
  lists _ hg := h.lists hd.sound hg
  others t ht hn := ⟨ht.extend hd.sound h, fun g loc hl => h.refEntries hd.sound (hn g loc hl),
    fun _ hg => hg.extend hd.sound h⟩

/-- A `put` leaves the references of its handle alone or has read `refs.tsv`. -/
theorem Store.put_refs (hd : d.Sound) (hs : s.Sound d) (bytes : Bytes) :
    (s.put d bytes).2.2.refs = s.refs ∨ (s.put d bytes).2.2.refs = (s.refsRead d).refs := by
  have hindex : (s.tryRefreshPackIndex d).refs = s.refs := (s.tryRefreshPackIndex_spec d).1
  have hrecheck : ((s.tryRefreshPackIndex d).recheck d).refs = (s.refsRead d).refs := by
    rw [Store.recheck_eq hd hs]
    rfl
  rcases Store.put_cases d s bytes with ⟨-, he⟩ | ⟨-, -, he⟩ | ⟨-, -, ⟨-, he⟩ | ⟨-, hw⟩⟩
  · exact .inl (by rw [he])
  · exact .inl (by rw [he, hindex])
  · exact .inr (by rw [he, hrecheck])
  · right
    rcases hw with ⟨p, d', -, he⟩ | ⟨id, offset, p, d', -, he⟩
    · rw [he]
      exact hrecheck
    · rw [he]
      exact hrecheck

omit [Blake3] in
/-- Reading `refs.tsv` brings in lines of it. -/
theorem Store.Noted.refsRead (hs : s.Sound d) (hn : s.Noted d) : (s.refsRead d).Noted d := by
  intro h loc hl
  rcases lookup_insertAll hl with hl | hl
  · exact hn h loc hl
  · have hsplit : Np2ptp.refEntries d.refsTsv = _ := hs.refs.entries_eq
    rw [hsplit]
    exact List.mem_append_right _ hl

/-- A single call of that kind keeps it. -/
theorem Prim.Live.retains {p : Prim} (hp : p.Live d) (hd : d.Steady) (hs : s.Sound d)
    (hn : s.Noted d) : Retains (d, s) (p.run d s) := by
  obtain ⟨hext, hsound⟩ := Prim.run_sound hd.sound hs p
  cases p with
  | put bytes =>
    obtain ⟨packs, tail, hdisk, -⟩ := Store.put_disk d s bytes
    have htsv : (s.put d bytes).2.1.refsTsv = d.refsTsv := by rw [hdisk]
    have hsources : (s.put d bytes).2.1.sources = d.sources := by rw [hdisk]
    have hlive : (s.put d bytes).2.1.RefsLive := by
      intro e he
      rw [htsv] at he
      exact (hd.refs e he).congr hsources
    refine .of_extends hd hext hlive hsound ?_ ?_
    · intro h loc hl
      show (h, loc) ∈ Np2ptp.refEntries (s.put d bytes).2.1.refsTsv
      rw [htsv]
      rcases Store.put_refs hd.sound hs bytes with hr | hr
      · exact hn h loc (hr ▸ hl)
      · exact hn.refsRead hs h loc (hr ▸ hl)
    · intro h hm
      show h ∈ (s.put d bytes).2.2.refs
      rcases Store.put_refs hd.sound hs bytes with hr | hr
      · rwa [hr]
      · rw [hr]
        exact mem_insertAll.mpr (.inl hm)
  | has h =>
    have hrefs : (s.has d h).2.refs = s.refs := by
      rcases Store.has_handle hd.sound hs h with he | he
      · rw [he]
      · rw [he]
        rfl
    exact .of_extends hd hext hd.refs hsound (fun g loc hl => hn g loc (hrefs ▸ hl))
      fun g hg => hrefs.symm ▸ hg
  | get h =>
    have hrefs : (s.get d h).2.refs = s.refs := by
      rcases Store.get_handle hd.sound hs h with he | he
      · rw [he]
      · rw [he]
        rfl
    exact .of_extends hd hext hd.refs hsound (fun g loc hl => hn g loc (hrefs ▸ hl))
      fun g hg => hrefs.symm ▸ hg
  | addReference h source offset length =>
    obtain ⟨hsafe, hlive⟩ := hp
    have hentries : Np2ptp.refEntries (d.refsTsv ++ refLine h source offset length) =
        Np2ptp.refEntries d.refsTsv ++ [(h, ⟨source, offset, length⟩)] := by
      rw [refEntries_append hd.sound.refsClosed, refEntries_refLine hsafe]
    refine .of_extends hd hext ?_ hsound ?_ fun g hg => Finmap.mem_insert.mpr (.inr hg)
    · intro e he
      rcases List.mem_append.mp (hentries ▸ he) with he | he
      · exact (hd.refs e he).congr rfl
      · rw [List.mem_singleton.mp he]
        exact hlive.congr rfl
    · intro g loc hl
      show (g, loc) ∈ Np2ptp.refEntries (d.refsTsv ++ refLine h source offset length)
      rw [hentries, List.mem_append, List.mem_singleton]
      by_cases hg : g = h
      · subst hg
        have hloc : (s.refs.insert g ⟨source, offset, length⟩).lookup g = some loc := hl
        rw [Finmap.lookup_insert, Option.some.injEq] at hloc
        exact .inr (by rw [hloc])
      · have hloc : (s.refs.insert h ⟨source, offset, length⟩).lookup g = some loc := hl
        rw [Finmap.lookup_insert_of_ne _ hg] at hloc
        exact .inl (hn g loc hloc)

/-! ## An ingest -/

/-- The state is what some calls of that kind leave of another. -/
def LiveSteps (a b : Disk × Store) : Prop :=
  ∃ ps : List Prim, Prim.runAll a.1 a.2 ps = b ∧ ∀ p ∈ ps, p.Live a.1

theorem LiveSteps.refl (a : Disk × Store) : LiveSteps a a := ⟨[], rfl, by simp⟩

theorem LiveSteps.single {p : Prim} (hp : p.Live d) : LiveSteps (d, s) (p.run d s) :=
  ⟨[p], rfl, fun _ hq => by rwa [List.mem_singleton.mp hq]⟩

theorem LiveSteps.outside {a b : Disk × Store} (h : LiveSteps a b) :
    b.1.sources = a.1.sources ∧ b.1.canonicalize = a.1.canonicalize := by
  obtain ⟨ps, rfl, -⟩ := h
  exact Prim.runAll_outside ps a.1 a.2

theorem LiveSteps.trans {a b c : Disk × Store} (h : LiveSteps a b) (h' : LiveSteps b c) :
    LiveSteps a c := by
  have hsources := h.outside.1
  obtain ⟨ps, rfl, hps⟩ := h
  obtain ⟨qs, rfl, hqs⟩ := h'
  refine ⟨ps ++ qs, Prim.runAll_append, fun p hp => ?_⟩
  rcases List.mem_append.mp hp with hp | hp
  · exact hps p hp
  · exact (hqs p hp).congr hsources.symm

/-- An ingest that copies adds no reference. -/
theorem IsSteps.live {a b : Disk × Store} (h : IsSteps (fun _ => False) a b) : LiveSteps a b := by
  obtain ⟨ps, hps, hall⟩ := h
  refine ⟨ps, hps, fun p hp => ?_⟩
  have hingests := hall p hp
  cases p with
  | addReference g source offset length => exact hingests.elim
  | _ => trivial

/-- So do some calls of that kind, one after the other. -/
theorem LiveSteps.retains {a b : Disk × Store} (h : LiveSteps a b) (hd : a.1.Steady)
    (hs : a.2.Sound a.1) (hn : a.2.Noted a.1) : Retains a b := by
  obtain ⟨ps, rfl, hlive⟩ := h
  obtain ⟨d, s⟩ := a
  induction ps generalizing d s with
  | nil => exact .refl hd hs hn
  | cons p ps ih =>
    have hone := (hlive p List.mem_cons_self).retains hd hs hn
    have hsources := (Prim.run_outside d s p).1
    exact hone.trans (ih _ _ hone.disk hone.sound hone.noted fun q hq =>
      (hlive q (List.mem_cons_of_mem _ hq)).congr hsources)

/-- The bytes of a file at an offset can be referenced. -/
theorem Disk.refLive_of_file {src pre data rest : Bytes}
    (hfile : d.sources.lookup src = some (.file (pre ++ data ++ rest)))
    (hsize : (pre ++ data ++ rest).length ≤ MAX_FILE) (hlen : data.length ≤ MAX_CHUNK) :
    d.RefLive (Hash.of data) ⟨src, UInt64.ofNat pre.length, UInt32.ofNat data.length⟩ := by
  simp only [List.length_append] at hsize
  have hmax : MAX_FILE < 2 ^ 64 := by decide
  refine ⟨_, data, hfile, ?_, rfl⟩
  exact readAt_written (toNat_u64 (by omega)) (by omega) (hlen.trans_lt (by decide))

/-- The loop over the pieces of a file that is referenced. -/
theorem ingestPieces_live {src content : Bytes} (hsafe : LineSafe src)
    (hsize : content.length ≤ MAX_FILE) : ∀ (pieces : List Bytes) (pre : Bytes) {d : Disk}
    {s : Store} {refs : List ChunkRef}, d.sources.lookup src = some (.file content) →
    content = pre ++ pieces.flatten → (∀ p ∈ pieces, p.length ≤ MAX_CHUNK) →
    LiveSteps (d, s) (s.ingestPieces d (some src) pieces pre.length refs).2
  | [], _, _, _, _, _, _, _ => .refl _
  | data :: rest, pre, d, s, refs, hfile, hcontent, hle => by
    rw [List.flatten_cons, ← List.append_assoc] at hcontent
    have hlive : d.RefLive (Hash.of data)
        ⟨src, UInt64.ofNat pre.length, UInt32.ofNat data.length⟩ :=
      Disk.refLive_of_file (hcontent ▸ hfile) (hcontent ▸ hsize) (hle data List.mem_cons_self)
    have hone : LiveSteps (d, s) ((s.has d (Hash.of data)).2.addReference d (Hash.of data) src
        (UInt64.ofNat pre.length) (UInt32.ofNat data.length)) := by
      refine ⟨[.has (Hash.of data), .addReference _ src _ _], rfl, fun p hp => ?_⟩
      simp only [List.mem_cons, List.not_mem_nil, or_false] at hp
      rcases hp with rfl | rfl
      · trivial
      · exact ⟨hsafe, hlive⟩
    refine hone.trans ?_
    show LiveSteps _ (Store.ingestPieces _ _ (some src) rest (pre.length + data.length) _).2
    rw [← List.length_append]
    exact ingestPieces_live hsafe hsize rest (pre ++ data) hfile hcontent
      fun p hp => hle p (List.mem_cons_of_mem _ hp)

/-- What the name that `canonicalize` gives to a path must be for its chunks to stay where they
are: a name for the same file, of a size that a file system allows, which a line can hold. -/
structure Disk.Refers (d : Disk) (path src : Bytes) : Prop where
  safe : LineSafe src
  same : d.sources.lookup src = d.sources.lookup path
  size : ∀ content, d.sources.lookup path = some (.file content) → content.length ≤ MAX_FILE

/-- A path that may be ingested without copying. -/
def Disk.Referable (d : Disk) (path : Bytes) : Prop :=
  ∀ src, d.canonicalize path = some src → d.Refers path src

variable [FastCDC]

theorem ingestFileStreaming_live {path : Bytes} {noCopy : Bool}
    (hok : noCopy = true → d.Referable path) :
    LiveSteps (d, s) (s.ingestFileStreaming d path noCopy).2 := by
  cases noCopy with
  | false => exact (ingestFileStreaming_isSteps fun h => by cases h).live
  | true =>
    unfold Store.ingestFileStreaming
    simp only [true_and, if_true]
    rcases hcanonicalize : d.canonicalize path with _ | src
    · simp only [if_true]
      exact .refl _
    · obtain ⟨hsafe, hsame, hsize⟩ := hok rfl src hcanonicalize
      simp only [reduceCtorEq, if_false]
      rcases hfile : d.sources.lookup path with _ | ⟨content⟩ | _
      · exact .refl _
      · exact ingestPieces_live hsafe (hsize content hfile) (FastCDC.stream.pieces content) []
          (hsame.trans hfile) (FastCDC.stream.flatten_pieces content).symm
          (FastCDC.stream.length_le content)
      · exact .refl _

theorem ingestDiskFiles_live {noCopy : Bool} {files : List (Text × Bytes)} :
    ∀ {d : Disk} {s : Store} {b : Ingesting}, (noCopy = true → ∀ f ∈ files, d.Referable f.2) →
    LiveSteps (d, s) (s.ingestDiskFiles d noCopy files b).2 := by
  induction files with
  | nil => exact fun {d s _} _ => .refl (d, s)
  | cons f rest ih =>
    intro d s b hok
    have hfile : LiveSteps (d, s) (s.ingestFileStreaming d f.2 noCopy).2 :=
      ingestFileStreaming_live fun hn => hok hn f List.mem_cons_self
    rw [Store.ingestDiskFiles]
    rcases hf : s.ingestFileStreaming d f.2 noCopy with ⟨e | ⟨refs, size⟩, d', s'⟩
    · rwa [hf] at hfile
    · rw [hf] at hfile
      obtain ⟨hsources, hcanonicalize⟩ := hfile.outside
      refine hfile.trans (ih fun hn g hg src hsrc => ?_)
      have hrefers := hok hn g (List.mem_cons_of_mem _ hg) src (hcanonicalize ▸ hsrc)
      have hsources : d'.sources = d.sources := hsources
      exact ⟨hrefers.safe, by rw [hsources]; exact hrefers.same, by
        rw [hsources]; exact hrefers.size⟩

theorem ingestTreeFiles_live {files : List (Text × Bytes)} {name : Option Text} {noCopy : Bool}
    (hok : noCopy = true → ∀ f ∈ files, d.Referable f.2) :
    LiveSteps (d, s) (s.ingestTreeFiles d files name noCopy).2 := by
  have h := ingestDiskFiles_live (s := s) (b := ⟨[], [], 0⟩) hok
  rw [Store.ingestTreeFiles]
  split <;> next hp => rwa [hp] at h

omit [FastCDC] in
/-- What was put is found. -/
theorem Store.holds_of_put {r : Hash × Bool} {bytes : Bytes}
    (h : s.put d bytes = (.ok r, d', s')) : s'.holds d' (Hash.of bytes) = true := by
  have hindex : ∀ {d : Disk} {s : Store}, Hash.of bytes ∈ s.packIndex →
      s.holds d (Hash.of bytes) = true := by
    intro d s hm
    rw [Store.holds, decide_eq_true hm, Bool.true_or, Bool.true_or]
  rcases Store.put_cases d s bytes with ⟨hh, he⟩ | ⟨-, hm, he⟩ | ⟨-, -, ⟨hh, he⟩ | ⟨-, hw⟩⟩
  · rw [h] at he
    cases he
    exact hh
  · rw [h] at he
    cases he
    exact hindex hm
  · rw [h] at he
    cases he
    exact hh
  · rcases hw with ⟨p, d₁, -, he⟩ | ⟨id, offset, p, d₁, -, he⟩
    · rw [h] at he
      cases he
    · rw [h] at he
      cases he
      exact hindex (Finmap.mem_insert.mpr (.inl rfl))

omit [FastCDC] in
/-- A series of puts that succeeds leaves a handle that has every chunk. -/
theorem putAll_has : ∀ {chunks : List Bytes} {d : Disk} {s : Store}, d.Steady → s.Sound d →
    s.Noted d → (s.putAll d chunks).1 = .ok () →
    ∀ p ∈ chunks, (s.putAll d chunks).2.2.Has (s.putAll d chunks).2.1 (Hash.of p)
  | [], _, _, _, _, _, _, _, hp => by cases hp
  | bytes :: rest, d, s, hd, hs, hn, hok, p, hp => by
    have hone : Retains (d, s) (s.put d bytes).2 :=
      Prim.Live.retains (p := .put bytes) trivial hd hs hn
    rw [Store.putAll] at hok ⊢
    rcases hput : s.put d bytes with ⟨e | r, d₁, s₁⟩
    · rw [hput] at hok
      cases hok
    · rw [hput] at hok hone
      have hrest : Retains (d₁, s₁) (s₁.putAll d₁ rest).2 :=
        putAll_isSteps.live.retains hone.disk hone.sound hone.noted
      rcases List.mem_cons.mp hp with rfl | hp
      · exact hrest.has _ (hone.sound.has_of_holds (Store.holds_of_put hput))
      · exact putAll_has hone.disk hone.sound hone.noted hok p hp

/-! ## A history -/

/-- Source files that are referenced stay as they are, and what is ingested without copying can be
referenced. -/
def World.Steady (w : World) : Call → Prop
  | .edit sources _ => ∀ e ∈ refEntries w.disk.refsTsv,
      sources.lookup e.2.path = w.disk.sources.lookup e.2.path
  | .ingestFileStreaming _ path noCopy => noCopy = true → w.disk.Referable path
  | .ingestTreeFiles _ files _ noCopy => noCopy = true → ∀ f ∈ files, w.disk.Referable f.2
  | _ => True

/-- A steady directory whose handles are sound and noted. -/
structure World.Lively (w : World) : Prop where
  disk : w.disk.Steady
  handles : ∀ s ∈ w.handles, s.Sound w.disk ∧ s.Noted w.disk

/-- The handles that `K` names, and all that are opened from now on, have the chunks. -/
structure World.Serving (K : Nat → Prop) (hashes : List Hash) (w : World) : Prop where
  later : ∀ k, w.handles.length ≤ k → K k
  listed : ∀ h ∈ hashes, w.disk.Lists h
  has : ∀ k s, K k → w.handles[k]? = some s → ∀ h ∈ hashes, s.Has w.disk h

/-- What a step must keep. -/
structure World.Keeps (w w' : World) : Prop where
  lively : w'.Lively
  serving : ∀ K hashes, w.Serving K hashes → w'.Serving K hashes

omit [FastCDC] in
/-- Live calls on one handle. -/
theorem World.Lively.onHandle {w w' : World} {i : Nat} {f : Disk → Store → Disk × Store}
    (hw : w.Lively) (h : w.onHandle i f = some w')
    (hf : ∀ s, LiveSteps (w.disk, s) (f w.disk s)) : w.Keeps w' := by
  unfold World.onHandle at h
  split at h
  · cases h
  · next s hs =>
    cases h
    obtain ⟨hsound, hnoted⟩ := hw.handles s (List.mem_of_getElem? hs)
    have hkeeps := (hf s).retains hw.disk hsound hnoted
    constructor
    · refine ⟨hkeeps.disk, fun t ht => ?_⟩
      rcases List.mem_or_eq_of_mem_set ht with ht | rfl
      · obtain ⟨htsound, htnoted⟩ := hw.handles t ht
        obtain ⟨hsound', hnoted', -⟩ := hkeeps.others t htsound htnoted
        exact ⟨hsound', hnoted'⟩
      · exact ⟨hkeeps.sound, hkeeps.noted⟩
    · intro K hashes hserving
      refine ⟨fun k hk => ?_, fun g hg => hkeeps.lists g (hserving.listed g hg), ?_⟩
      · rw [List.length_set] at hk
        exact hserving.later k hk
      · intro k t hK ht g hg
        by_cases hki : k = i
        · subst hki
          have hlt := (List.getElem?_eq_some_iff.mp hs).1
          rw [List.getElem?_set_self hlt, Option.some.injEq] at ht
          subst ht
          exact hkeeps.has g (hserving.has k s hK hs g hg)
        · rw [List.getElem?_set_ne (Ne.symm hki)] at ht
          obtain ⟨htsound, htnoted⟩ := hw.handles t (List.mem_of_getElem? ht)
          obtain ⟨-, -, hhas⟩ := hkeeps.others t htsound htnoted
          exact hhas g (hserving.has k t hK ht g hg)

/-- A handle that is opened has what the directory lists. -/
theorem World.Lively.open {w w' : World} (hw : w.Lively) (h : w.step .open = some w') :
    w.Keeps w' := by
  obtain ⟨s, d', he, hdisk, hext, hs, -, hrefs⟩ := Store.open_sound hw.disk.sound
  simp only [World.step, he, Option.some.injEq] at h
  subst h
  have htsv : d'.refsTsv = w.disk.refsTsv := by rw [hdisk]
  have hsources : d'.sources = w.disk.sources := by rw [hdisk]
  have hlive : d'.RefsLive := by
    intro e he
    rw [htsv] at he
    exact (hw.disk.refs e he).congr hsources
  have hsteady : d'.Steady :=
    ⟨hw.disk.sound.extend hext, fun g b hl => hw.disk.objects g b (hext.objects ▸ hl), hlive⟩
  have hnoted : s.Noted d' := by
    intro g loc hl
    rw [hrefs] at hl
    rw [htsv]
    rcases lookup_insertAll hl with hl | hl
    · simp at hl
    · exact hl
  have hhas : ∀ g, w.disk.Lists g → s.Has d' g := by
    intro g hl
    rcases hl with hi | ho | hr
    · exact .inr (.inr (hext.indexed hw.disk.sound hi))
    · exact .inr (.inl (hext.objects ▸ ho))
    · exact .inl (hrefs ▸ mem_insertAll.mpr (.inr hr))
  constructor
  · refine ⟨hsteady, fun t ht => ?_⟩
    rcases List.mem_append.mp ht with ht | ht
    · obtain ⟨htsound, htnoted⟩ := hw.handles t ht
      exact ⟨htsound.extend hw.disk.sound hext, fun g loc hl => htsv ▸ htnoted g loc hl⟩
    · rw [List.mem_singleton.mp ht]
      exact ⟨hs, hnoted⟩
  · intro K hashes hserving
    refine ⟨fun k hk => ?_, fun g hg => hext.lists hw.disk.sound (hserving.listed g hg), ?_⟩
    · rw [List.length_append, List.length_singleton] at hk
      exact hserving.later k (by omega)
    · intro k t hK ht g hg
      have ht : (w.handles ++ [s])[k]? = some t := ht
      by_cases hlt : k < w.handles.length
      · rw [List.getElem?_append_left hlt] at ht
        exact (hserving.has k t hK ht g hg).extend hw.disk.sound hext
      · rw [List.getElem?_append_right (by omega)] at ht
        rw [List.mem_singleton.mp (List.mem_of_getElem? ht)]
        exact hhas g (hserving.listed g hg)

/-- A call that leaves the source files alone keeps what handles have. -/
theorem World.step_lively (w : World) (c : Call) (w' : World) (hw : w.Lively) (hc : w.Steady c)
    (h : w.step c = some w') : w.Keeps w' := by
  cases c with
  | «open» => exact hw.open h
  | put i bytes =>
    simp only [World.step] at h
    exact hw.onHandle h fun s => LiveSteps.single (p := .put bytes) trivial
  | ingest i data name =>
    simp only [World.step] at h
    exact hw.onHandle h fun s => ingest_isSteps.live
  | ingestTree i files name =>
    simp only [World.step] at h
    exact hw.onHandle h fun s => ingestTree_isSteps.live
  | ingestFileStreaming i path noCopy =>
    simp only [World.step] at h
    exact hw.onHandle h fun s => ingestFileStreaming_live hc
  | ingestTreeFiles i files name noCopy =>
    simp only [World.step] at h
    exact hw.onHandle h fun s => ingestTreeFiles_live hc
  | has i g =>
    simp only [World.step] at h
    exact hw.onHandle h fun s => LiveSteps.single (p := .has g) trivial
  | get i g =>
    simp only [World.step] at h
    exact hw.onHandle h fun s => LiveSteps.single (p := .get g) trivial
  | edit sources canonicalize =>
    cases h
    have hd := hw.disk.sound
    have hlive : ∀ e ∈ refEntries w.disk.refsTsv, ∃ content bytes,
        sources.lookup e.2.path = some (.file content) ∧
          readAt content e.2.offset e.2.length = some bytes ∧ Hash.of bytes = e.1 := by
      intro e he
      obtain ⟨content, bytes, hfile, hread, hhash⟩ := hw.disk.refs e he
      exact ⟨content, bytes, by rw [hc e he, hfile], hread, hhash⟩
    refine ⟨⟨⟨⟨hd.1, hd.2, hd.3, hd.4, hd.5, hd.6⟩, hw.disk.objects, hlive⟩, fun t ht => ?_⟩, ?_⟩
    · obtain ⟨hs, hn⟩ := hw.handles t ht
      exact ⟨⟨hs.1, hs.2, hs.3⟩, hn⟩
    · exact fun K hashes hserving => ⟨hserving.later, hserving.listed, hserving.has⟩

/-- So does a history of such calls. -/
theorem World.Lively.runs {w w' : World} {calls : List Call} (hw : w.Lively)
    (hsteady : Along World.step World.Steady w calls) (h : runs World.step w calls = some w') :
    w.Keeps w' :=
  runs_invariant (I := fun v => w.Keeps v) (fun v c v' hv hc hstep =>
    have hone := World.step_lively v c v' hv.lively hc hstep
    ⟨hone.lively, fun K hashes hs => hone.serving K hashes (hv.serving K hashes hs)⟩)
    ⟨hw, fun _ _ => id⟩ hsteady h

omit [FastCDC] in
theorem World.lively_fresh {objects : HashMap Hash Bytes} {sources : HashMap Bytes Source}
    {canonicalize : Bytes → Option Bytes}
    (h : ∀ g bytes, objects.lookup g = some bytes → Hash.of bytes = g) :
    World.Lively ⟨Disk.fresh objects sources canonicalize, []⟩ := by
  obtain ⟨hd, ho, -⟩ : World.Sound ⟨Disk.fresh objects sources canonicalize, []⟩ :=
    World.sound_fresh h
  exact ⟨⟨hd, ho, by simp [Disk.RefsLive, Disk.fresh, entries, pieces]⟩, by simp⟩

/-! ## Ingest, then export -/

omit [Blake3] in
theorem length_of_mem_treePieces {files : List (Text × Bytes)} {p : Bytes}
    (hp : p ∈ treePieces files) : p.length ≤ MAX_CHUNK := by
  obtain ⟨f, -, hp⟩ := List.mem_flatMap.mp hp
  exact FastCDC.slice.length_le f.2 p hp

/-- A handle that has the pieces of a tree exports it. -/
theorem exportTree_of_has {files : List (Text × Bytes)} (name : Option Text) (hd : d.Steady)
    (hs : s.Sound d) (hn : s.Noted d) (hsize : (treeBytes files).length < 2 ^ 64)
    (hhas : ∀ p ∈ treePieces files, s.Has d (Hash.of p))
    (hnc : ∀ p ∈ treePieces files, d.NoCollision p) :
    (s.exportTree d (Manifest.fromFiles files name)).1 = .ok files := by
  let I : Store × Option StoreError → Prop := fun t =>
    t.2 = none ∧ t.1.Sound d ∧ ∀ p ∈ treePieces files, t.1.Serves d (Hash.of p)
  have hdelivers : Delivers (Store.fetch d) I (treePieces files) := by
    rintro ⟨t, err⟩ ⟨rfl, ht, hserves⟩ p hp
    have hlt : p.length < 2 ^ 32 := (length_of_mem_treePieces hp).trans_lt (by decide)
    have hget := (Store.get_ok_iff hd.sound hd.objects ht (hnc p hp) fun _ => hlt).mpr
      (hserves p hp)
    rcases hr : t.get d (Hash.of p) with ⟨r, t'⟩
    rw [hr] at hget
    refine ⟨(t', none), ?_, rfl, ?_⟩
    · simp only [Store.fetch, hr, show r = _ from hget]
    · rcases Store.get_handle hd.sound ht (Hash.of p) with he | he
      · rw [hr] at he
        rw [show t' = t from he]
        exact ⟨ht, hserves⟩
      · rw [hr] at he
        rw [show t' = t.indexRead d from he]
        exact ⟨ht.indexRead hd.sound, fun q hq => (hserves q hq).indexRead ht⟩
  have hshape := Manifest.fromFiles_eq files name
  have hroot : (Manifest.fromFiles files name).rootIsConsistent = true := beq_iff_eq.mpr rfl
  have hstart : I (s, none) := ⟨rfl, hs, fun p hp => Store.serves_of_has hd.refs hn (hhas p hp)⟩
  have hchunks : (Manifest.fromFiles files name).chunks = [] ++ refsFrom 0 files := by
    rw [hshape]
    rfl
  obtain ⟨⟨t, err⟩, hloop, hnone, -⟩ := Manifest.collectFiles_of_delivers hroot files [] []
    hchunks (by simpa using hsize) hdelivers hstart
  have hnone : err = none := hnone
  subst hnone
  have hentries : (Manifest.fromFiles files name).files = entriesFrom 0 files := by rw [hshape]
  rw [Store.exportTree, Manifest.reconstructFiles, Manifest.validate_fromFiles name hsize, hentries]
  dsimp only
  rw [show (0 : Nat) = ([] : List ChunkRef).length from rfl, hloop]
  rfl

/-- An ingested tree is there. -/
theorem ingestTree_has {files : List (Text × Bytes)} {name : Option Text} {m : Manifest}
    (hd : d.Steady) (hs : s.Sound d) (hn : s.Noted d) (hsize : (treeBytes files).length < 2 ^ 64)
    (hok : (s.ingestTree d files name).1 = .ok m) : m = Manifest.fromFiles files name ∧
      ∀ p ∈ treePieces files,
        (s.ingestTree d files name).2.2.Has (s.ingestTree d files name).2.1 (Hash.of p) := by
  have hput := @putAll_has _ (treePieces files) d s hd hs hn
  rw [Store.ingestTree] at hok ⊢
  rw [treeSlices_fromFiles name hsize] at hok ⊢
  rcases hp : s.putAll d (treePieces files) with ⟨e | ⟨⟩, d', s'⟩
  · rw [hp] at hok
    cases hok
  · rw [hp] at hok hput
    cases hok
    exact ⟨rfl, hput rfl⟩

end

section

variable [Blake3] [FastCDC] {objects : HashMap Hash Bytes} {sources : HashMap Bytes Source}
  {canonicalize : Bytes → Option Bytes} {calls more : List Call} {w w' : World} {i j : Nat}
  {s t : Store} {files : List (Text × Bytes)} {name : Option Text} {m : Manifest}

/-- What was ingested is exported, for ever after: after any calls on a directory, which may have
chunks of the old layout in it, whatever tree a handle ingests with success is exported as it was
by the same handle and by every handle that was opened since, right away and after any more calls,
as long as referenced source files stay as they are. -/
theorem ingest_then_export (hobjects : ∀ g old, objects.lookup g = some old → Hash.of old = g)
    (hrun : runs World.step ⟨Disk.fresh objects sources canonicalize, []⟩ calls = some w)
    (hsteady : Along World.step World.Steady ⟨Disk.fresh objects sources canonicalize, []⟩ calls)
    (hs : w.handles[i]? = some s) (hok : (s.ingestTree w.disk files name).1 = .ok m)
    (hrun' : runs World.step w (.ingestTree i files name :: more) = some w')
    (hsteady' : Along World.step World.Steady w (.ingestTree i files name :: more))
    (hj : j = i ∨ w.handles.length ≤ j) (ht : w'.handles[j]? = some t)
    (hsize : (treeBytes files).length < 2 ^ 64)
    (hnc : ∀ p ∈ treePieces files, w'.disk.NoCollision p) :
    (t.exportTree w'.disk m).1 = .ok files := by
  have hw := ((World.lively_fresh hobjects).runs hsteady hrun).lively
  obtain ⟨hsound, hnoted⟩ := hw.handles s (List.mem_of_getElem? hs)
  obtain ⟨rfl, hhas⟩ := ingestTree_has hw.disk hsound hnoted hsize hok
  -- the ingest itself
  obtain ⟨w₁, hstep, hmore⟩ := runs_cons.mp hrun'
  have hw₁ := (World.step_lively w _ w₁ hw hsteady'.1 hstep).lively
  have hafter : w₁ = ⟨(s.ingestTree w.disk files name).2.1,
      w.handles.set i (s.ingestTree w.disk files name).2.2⟩ := by
    simp only [World.step, World.onHandle, hs, Option.some.injEq] at hstep
    exact hstep.symm
  have hserving : w₁.Serving (fun k => k = i ∨ w.handles.length ≤ k)
      ((treePieces files).map Hash.of) := by
    have hown : w₁.handles[i]? = some (s.ingestTree w.disk files name).2.2 := by
      rw [hafter]
      exact List.getElem?_set_self (List.getElem?_eq_some_iff.mp hs).1
    have hcount : w₁.handles.length = w.handles.length := by
      rw [hafter]
      exact List.length_set
    have hhas₁ : ∀ h ∈ (treePieces files).map Hash.of,
        (s.ingestTree w.disk files name).2.2.Has w₁.disk h := by
      intro h hh
      obtain ⟨p, hp, rfl⟩ := List.mem_map.mp hh
      rw [hafter]
      exact hhas p hp
    refine ⟨fun k hk => .inr (hcount ▸ hk), fun h hh => ?_, fun k u hk hu h hh => ?_⟩
    · exact (hw₁.handles _ (List.mem_of_getElem? hown)).2.lists (hhas₁ h hh)
    · rcases hk with rfl | hk
      · rw [hown, Option.some.injEq] at hu
        exact hu ▸ hhas₁ h hh
      · have hlt := (List.getElem?_eq_some_iff.mp hu).1
        omega
  -- and what comes after it
  have hkeeps := hw₁.runs (hsteady'.2 w₁ hstep) hmore
  obtain ⟨htsound, htnoted⟩ := hkeeps.lively.handles t (List.mem_of_getElem? ht)
  exact exportTree_of_has name hkeeps.lively.disk htsound htnoted hsize
    (fun p hp => (hkeeps.serving _ _ hserving).has j t hj ht _ (List.mem_map_of_mem hp)) hnc

end

/-- The path of the source file of `freshOfX` may be referenced. -/
theorem referable_of_freshOfX {d : Disk}
    (hsources : d.sources = Finmap.singleton [47, 102] (.file [120]))
    (hcanonicalize : d.canonicalize = some) : d.Referable [47, 102] := by
  intro src hsrc
  rw [hcanonicalize, Option.some.injEq] at hsrc
  subst hsrc
  refine ⟨⟨by decide, by decide, by decide⟩, rfl, fun content hc => ?_⟩
  rw [hsources, Finmap.lookup_singleton_eq, Option.some.injEq, Source.file.injEq] at hc
  rw [← hc]
  decide

/-- A file of the one byte `x` that is only referenced is ingested once more as a tree, and a handle
that is opened afterwards exports it. -/
theorem ingest_then_export_x :
    let _ := blake3OfX
    let _ := minFastCDC
    ∃ w s m w' a b, runs World.step freshOfX
        [.open, .ingestFileStreaming 0 [47, 102] true] = some w ∧ w.handles = [s] ∧
      (s.ingestTree w.disk [(dataPath, [120])] none).1 = .ok m ∧
      runs World.step w [.ingestTree 0 [(dataPath, [120])] none, .open] = some w' ∧
      w'.handles = [a, b] ∧ (b.exportTree w'.disk m).1 = .ok [(dataPath, [120])] := by
  let _ := blake3OfX
  let _ := minFastCDC
  have hcalls : Along World.step World.Steady freshOfX
      [.open, .ingestFileStreaming 0 [47, 102] true] := by
    refine ⟨trivial, fun w₁ h₁ => ⟨fun _ => ?_, fun _ _ => trivial⟩⟩
    obtain rfl := Option.some.inj h₁
    exact referable_of_freshOfX rfl rfl
  refine ⟨_, _, _, _, _, _, rfl, rfl, rfl, rfl, rfl, ?_⟩
  refine @ingest_then_export _ _ ∅ _ _ _ [.open] _ _ 0 1 _ _ [(dataPath, [120])] none _
    (by simp) rfl hcalls rfl rfl rfl ⟨trivial, fun _ _ => ⟨trivial, fun _ _ => trivial⟩⟩
    (.inr (Nat.le_refl _)) rfl (by decide) ?_
  intro p hp other _ hh
  have hpieces : treePieces [(dataPath, [120])] = [[120]] := by decide
  rw [hpieces] at hp
  rw [List.mem_singleton.mp hp] at hh ⊢
  exact eq_of_digestOfX hh

end Np2ptp
