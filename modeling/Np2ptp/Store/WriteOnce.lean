import Np2ptp.Store.PackIndex

/-!
# Puts of one handle write once

Threads put chunks through one handle of a directory that nobody else writes to. The second look of
`put`, the write and the insert stand between taking and giving back the pack lock, and the looks
without the lock see only what was there before or what some `put` is writing: of the puts of a
chunk that is not there at the start exactly one writes it (`concurrent_puts_write_once`). The
cursor may come to stand within a line that the handle wrote itself, as a `put` moves it over its
line even if another thread has done so already; what is read from there on names no other chunks
(`mem_closedLines_drop`).
-/

namespace Np2ptp

open Lib

section

variable [Blake3]

/-! ## Writes -/

/-- The index lines of some writes. -/
def linesOf (writes : List (Bytes × PackLoc)) : Bytes :=
  writes.flatMap fun w => packIndexLine (Hash.of w.1) w.2

/-- What some writes add to a pack file. -/
def bytesTo (id : UInt32) (writes : List (Bytes × PackLoc)) : Bytes :=
  (writes.filter fun w => w.2.packId = id).flatMap Prod.fst

/-- The writes of some puts. -/
def writesOf (puts : List Put) : List (Bytes × PackLoc) :=
  puts.filterMap fun p => p.2.map fun loc => (p.1, loc)

/-- The chunk is one of the writes. -/
def Wrote (writes : List (Bytes × PackLoc)) (h : Hash) : Prop := ∃ w ∈ writes, Hash.of w.1 = h

theorem linesOf_concat (writes : List (Bytes × PackLoc)) (w : Bytes × PackLoc) :
    linesOf (writes ++ [w]) = linesOf writes ++ packIndexLine (Hash.of w.1) w.2 := by
  rw [linesOf, List.flatMap_append, List.flatMap_singleton]
  rfl

/-- Index lines are ASCII. -/
theorem linesOf_ascii {writes : List (Bytes × PackLoc)} : ∀ b ∈ linesOf writes, b < 128 := by
  intro b hb
  obtain ⟨w, -, hb⟩ := List.mem_flatMap.mp hb
  exact packIndexLine_ascii _ _ b hb

/-- Behind a text without a closed line, the closed lines are those of the writes, the first one
perhaps with something before it. -/
theorem closedLines_linesOf {t l : Bytes} (ht : closedLines LF t = [])
    {writes : List (Bytes × PackLoc)} (hl : l ∈ closedLines LF (t ++ linesOf writes)) :
    ∃ w ∈ writes, packIndexLine (Hash.of w.1) w.2 <:+ l := by
  induction writes using List.reverseRecOn with
  | nil =>
    rw [linesOf, List.flatMap_nil, List.append_nil, ht] at hl
    cases hl
  | append_singleton writes w ih =>
    rw [linesOf_concat, ← List.append_assoc,
      ← List.take_length (l := packIndexLine (Hash.of w.1) w.2)] at hl
    rcases mem_closedLines_append_take hl with hl | hsuff
    · obtain ⟨w', hw', hsuff⟩ := ih hl
      exact ⟨w', List.mem_append_left _ hw', hsuff⟩
    · exact ⟨w, List.mem_append_right _ (List.mem_singleton.mpr rfl), hsuff⟩

/-- From anywhere within the writes the closed lines name the chunks of writes, if any. -/
theorem wrote_of_closedLines {t l : Bytes} (ht : closedLines LF t = [])
    {writes : List (Bytes × PackLoc)} {n : Nat}
    (hl : l ∈ closedLines LF ((t ++ linesOf writes).drop n)) {e : Hash × PackLoc}
    (he : packEntry l = some e) : Wrote writes e.1 := by
  obtain ⟨l', hl', hsuff⟩ := closedLines_drop hl
  obtain ⟨w, hw, hline⟩ := closedLines_linesOf ht hl'
  have hne : l ≠ [] := by
    rintro rfl
    cases he
  have hfragment := List.suffix_or_suffix_of_suffix hsuff hline
  obtain rfl := packEntry_fragment hne hfragment he
  rw [packEntry_packIndexLine] at he
  cases he
  exact ⟨w, hw, rfl⟩

/-! ## Where a handle starts -/

/-- What a second look of `put` would find: the chunk is in the pack index or in the references
after a refresh, or under `objects/`. -/
def Store.Finds (d : Disk) (s : Store) (h : Hash) : Prop := (s.recheck d).holds d h = true

/-- The whole lines that a handle has not read. -/
def Store.unread (d : Disk) (s : Store) : Bytes := complete LF (d.index.drop s.packIndexPos)

variable {d₀ : Disk} {s₀ : Store}

/-- What a closed line can name that is read from the start of the handle on, or from anywhere after
what it had not read. -/
theorem mem_closedLines_drop {writes : List (Bytes × PackLoc)} {index l : Bytes} {pos : Nat}
    (hindex : index <+: d₀.index ++ linesOf writes)
    (hpos : pos = s₀.packIndexPos ∨ s₀.packIndexPos + (s₀.unread d₀).length ≤ pos)
    (hl : l ∈ closedLines LF (index.drop pos)) {e : Hash × PackLoc} (he : packEntry l = some e) :
    e ∈ packEntries (s₀.unread d₀) ∨ Wrote writes e.1 := by
  have hall : l ∈ closedLines LF ((d₀.index ++ linesOf writes).drop pos) := by
    obtain ⟨rest, hrest⟩ := hindex
    rw [← hrest, List.drop_append, closedLines_append]
    exact List.mem_append_left _ hl
  by_cases hle : s₀.packIndexPos ≤ d₀.index.length
  · have htail : (d₀.index ++ linesOf writes).drop s₀.packIndexPos =
        d₀.index.drop s₀.packIndexPos ++ linesOf writes := List.drop_append_of_le_length hle
    have hsplit : s₀.unread d₀ ++ torn LF (d₀.index.drop s₀.packIndexPos) =
        d₀.index.drop s₀.packIndexPos := complete_append_torn _
    have htorn : closedLines LF (torn LF (d₀.index.drop s₀.packIndexPos)) = [] :=
      closedLines_append_of_notMem (s := []) (notMem_torn _)
    rcases hpos with rfl | hpos
    · rw [htail, closedLines_append, List.mem_append] at hall
      rcases hall with hall | hall
      · exact .inl (List.mem_filterMap.mpr ⟨l, hall, he⟩)
      · exact .inr (wrote_of_closedLines htorn (n := 0) hall he)
    · obtain ⟨n, rfl⟩ := Nat.exists_eq_add_of_le hpos
      rw [Nat.add_assoc, ← List.drop_drop, htail, ← hsplit, List.append_assoc, ← List.drop_drop,
        List.drop_left] at hall
      exact .inr (wrote_of_closedLines htorn hall he)
  · obtain ⟨n, rfl⟩ : ∃ n, pos = d₀.index.length + n := Nat.exists_eq_add_of_le (by omega)
    rw [← List.drop_drop, List.drop_left] at hall
    exact .inr (wrote_of_closedLines (t := []) rfl hall he)

/-- A handle whose cursor is past what it had not read at the start, and that knows it. -/
structure Store.Caught (s : Store) (d₀ : Disk) (s₀ : Store) : Prop where
  past : s₀.packIndexPos + (s₀.unread d₀).length ≤ s.packIndexPos
  knows : ∀ h ∈ (s₀.tryRefreshPackIndex d₀).packIndex, h ∈ s.packIndex

/-- A handle that has read the references. -/
def Store.ReadRefs (s : Store) (d₀ : Disk) (s₀ : Store) : Prop :=
  s.refs = (s₀.tryRefreshRefs d₀).refs ∧ s.refsPos = (s₀.tryRefreshRefs d₀).refsPos

/-- A write that has begun, with what has not landed of the chunk and of its line. -/
structure Writing where
  bytes : Bytes
  loc : PackLoc
  chunkLeft : Bytes
  lineLeft : Bytes

/-- The write of a thread that is in one. -/
def Pc.underWay : Pc → Option Writing
  | .writing bytes id offset rest =>
    let loc : PackLoc := ⟨id, UInt64.ofNat offset, UInt32.ofNat bytes.length⟩
    some ⟨bytes, loc, rest, packIndexLine (Hash.of bytes) loc⟩
  | .appending bytes loc rest => some ⟨bytes, loc, [], rest⟩
  | .inserting bytes loc | .bumping bytes loc | .unlocking bytes loc => some ⟨bytes, loc, [], []⟩
  | _ => none

/-- The writes so far: of the puts that have returned, and the one that is under way. -/
def written (news : List Put) (w : Option Writing) : List (Bytes × PackLoc) :=
  writesOf news ++ (w.map fun w => (w.bytes, w.loc)).toList

/-- What is left to append to the index. -/
def lineLeft (w : Option Writing) : Bytes := (w.map Writing.lineLeft).getD []

/-- What is left to append to a pack file. -/
def chunkLeft (id : UInt32) (w : Option Writing) : Bytes :=
  (w.map fun w => if w.loc.packId = id then w.chunkLeft else []).getD []

/-- The bytes of a pack file, if it exists. -/
def Disk.pack (d : Disk) (id : UInt32) : Bytes := (d.packs.lookup id).getD []

/-- The state of a burst of puts: what has been written since the start, each chunk once and none
that was there, and what the handle knows of it. -/
structure Burst (d₀ : Disk) (s₀ : Store) (d : Disk) (s : Store) (news : List Put)
    (w : Option Writing) : Prop where
  objects : d.objects = d₀.objects
  refsTsv : d.refsTsv = d₀.refsTsv
  refs : s.refs = s₀.refs ∧ s.refsPos = s₀.refsPos ∨ s.ReadRefs d₀ s₀
  keeps : ∀ h ∈ s₀.packIndex, h ∈ s.packIndex
  knows : ∀ h ∈ s.packIndex,
    h ∈ (s₀.tryRefreshPackIndex d₀).packIndex ∨ Wrote (written news w) h
  cursor : s.packIndexPos = s₀.packIndexPos ∨ s.Caught d₀ s₀
  returned : ∀ h, Wrote (writesOf news) h → h ∈ s.packIndex
  once : ((written news w).map fun x => Hash.of x.1).Nodup
  absent : ∀ h, Wrote (written news w) h → ¬s₀.Finds d₀ h
  index : ∃ added, d.index = d₀.index ++ added ∧ added ++ lineLeft w = linesOf (written news w)
  packs : ∀ id, d.pack id ++ chunkLeft id w = d₀.pack id ++ bytesTo id (written news w)
  found : ∀ p ∈ news, p.2 = none → s₀.Finds d₀ (Hash.of p.1) ∨ Wrote (written news w) (Hash.of p.1)

/-- A thread in a refresh for `put` holds the pack lock. -/
def Return.Holds (c : Shared) (t : Nat) : Return → Prop
  | .late _ => c.handle.packLock = some t
  | _ => True

/-- What a thread may rely on at a program counter. -/
def Pc.Once (d₀ : Disk) (s₀ : Store) (c : Shared) (t : Nat) (writes : List (Bytes × PackLoc)) :
    Pc → Prop
  | .refreshLock k => k.Holds c t
  | .refreshStat k | .refreshRead k => c.handle.posLock = some t ∧ k.Holds c t
  | .refreshApply k whole => c.handle.posLock = some t ∧ k.Holds c t ∧
      (∀ e ∈ packEntries whole, e ∈ packEntries (s₀.unread d₀) ∨ Wrote writes e.1) ∧
      Store.Caught { c.handle.store with
        packIndex := insertAll c.handle.store.packIndex (packEntries whole)
        packIndexPos := c.handle.store.packIndexPos + whole.length } d₀ s₀
  | .refreshAdvance k n => c.handle.posLock = some t ∧ k.Holds c t ∧
      Store.Caught { c.handle.store with
        packIndexPos := c.handle.store.packIndexPos + n } d₀ s₀
  | .putRefs _ => c.handle.packLock = some t ∧ c.handle.store.Caught d₀ s₀
  | .recheckPack _ => c.handle.packLock = some t ∧ c.handle.store.Caught d₀ s₀ ∧
      c.handle.store.ReadRefs d₀ s₀
  | .recheckObject bytes => c.handle.packLock = some t ∧ c.handle.store.Caught d₀ s₀ ∧
      c.handle.store.ReadRefs d₀ s₀ ∧
      Hash.of bytes ∉ (s₀.tryRefreshPackIndex d₀).packIndex ∧ ¬Wrote writes (Hash.of bytes)
  | .recheckRefs bytes => c.handle.packLock = some t ∧ c.handle.store.Caught d₀ s₀ ∧
      c.handle.store.ReadRefs d₀ s₀ ∧
      Hash.of bytes ∉ (s₀.tryRefreshPackIndex d₀).packIndex ∧ Hash.of bytes ∉ d₀.objects ∧
      ¬Wrote writes (Hash.of bytes)
  | .dedup bytes => c.handle.packLock = some t ∧
      (s₀.Finds d₀ (Hash.of bytes) ∨ Wrote writes (Hash.of bytes))
  | .rotate bytes | .guardWait bytes | .seek bytes => c.handle.packLock = some t ∧
      c.handle.store.Caught d₀ s₀ ∧ ¬s₀.Finds d₀ (Hash.of bytes) ∧ ¬Wrote writes (Hash.of bytes)
  | .writing .. | .appending .. | .inserting .. => c.handle.packLock = some t ∧
      c.handle.store.Caught d₀ s₀
  | .bumping bytes _ | .unlocking bytes _ => c.handle.packLock = some t ∧
      c.handle.store.Caught d₀ s₀ ∧ Hash.of bytes ∈ c.handle.store.packIndex
  | _ => True

/-- What a step leaves alone that a thread may rely on. -/
structure Spares (d₀ : Disk) (s₀ : Store) (u : Nat) (h h' : Handle)
    (writes writes' : List (Bytes × PackLoc)) : Prop where
  known : ∀ k ∈ h.store.packIndex, k ∈ h'.store.packIndex
  moves : h.store.packIndexPos ≤ h'.store.packIndexPos
  cursor : h.posLock = some u →
    h'.posLock = some u ∧ h'.store.packIndexPos = h.store.packIndexPos
  lock : h.packLock = some u → h'.packLock = some u ∧ writes' = writes
  refs : h.store.ReadRefs d₀ s₀ → h'.store.ReadRefs d₀ s₀
  wrote : ∀ k, Wrote writes k → Wrote writes' k

omit [Blake3] in
theorem Store.Caught.mono {s s' : Store} (h : s.Caught d₀ s₀)
    (hknown : ∀ k ∈ s.packIndex, k ∈ s'.packIndex) (hmoves : s.packIndexPos ≤ s'.packIndexPos) :
    s'.Caught d₀ s₀ :=
  ⟨h.past.trans hmoves, fun k hk => hknown k (h.knows k hk)⟩

theorem Return.Holds.stable {c c' : Shared} {t : Nat} {k : Return} {ws ws' : List (Bytes × PackLoc)}
    (hk : k.Holds c t) (h : Spares d₀ s₀ t c.handle c'.handle ws ws') : k.Holds c' t := by
  cases k with
  | late bytes => exact (h.lock hk).1
  | _ => trivial

/-- A thread can go on relying on it when another one makes a step. -/
theorem Pc.Once.stable {c c' : Shared} {t : Nat} {pc : Pc} {ws ws' : List (Bytes × PackLoc)}
    (hp : pc.Once d₀ s₀ c t ws) (h : Spares d₀ s₀ t c.handle c'.handle ws ws') :
    pc.Once d₀ s₀ c' t ws' := by
  have hcaught : c.handle.store.Caught d₀ s₀ → c'.handle.store.Caught d₀ s₀ :=
    fun hc => hc.mono h.known h.moves
  cases pc with
  | refreshLock k => exact Return.Holds.stable hp h
  | refreshStat k => exact ⟨(h.cursor hp.1).1, hp.2.stable h⟩
  | refreshRead k => exact ⟨(h.cursor hp.1).1, hp.2.stable h⟩
  | refreshApply k whole =>
    obtain ⟨hpos, hk, hnames, hc⟩ := hp
    obtain ⟨hpos', hsame⟩ := h.cursor hpos
    refine ⟨hpos', hk.stable h, fun e he => (hnames e he).imp_right (h.wrote _),
      hc.mono (fun k hk => ?_) (by simp only [hsame, Nat.le_refl])⟩
    exact mem_insertAll.mpr ((mem_insertAll.mp hk).imp_left (h.known k))
  | refreshAdvance k n =>
    obtain ⟨hpos, hk, hc⟩ := hp
    obtain ⟨hpos', hsame⟩ := h.cursor hpos
    exact ⟨hpos', hk.stable h, hc.mono h.known (by simp only [hsame, Nat.le_refl])⟩
  | putRefs bytes => exact ⟨(h.lock hp.1).1, hcaught hp.2⟩
  | recheckPack bytes => exact ⟨(h.lock hp.1).1, hcaught hp.2.1, h.refs hp.2.2⟩
  | recheckObject bytes =>
    obtain ⟨hlock, hc, hrefs, hno, hw⟩ := hp
    obtain ⟨hlock', rfl⟩ := h.lock hlock
    exact ⟨hlock', hcaught hc, h.refs hrefs, hno, hw⟩
  | recheckRefs bytes =>
    obtain ⟨hlock, hc, hrefs, hno, ho, hw⟩ := hp
    obtain ⟨hlock', rfl⟩ := h.lock hlock
    exact ⟨hlock', hcaught hc, h.refs hrefs, hno, ho, hw⟩
  | dedup bytes => exact ⟨(h.lock hp.1).1, hp.2.imp_right (h.wrote _)⟩
  | rotate bytes | guardWait bytes | seek bytes =>
    obtain ⟨hlock, hc, hno, hw⟩ := hp
    obtain ⟨hlock', rfl⟩ := h.lock hlock
    exact ⟨hlock', hcaught hc, hno, hw⟩
  | writing | appending | inserting => exact ⟨(h.lock hp.1).1, hcaught hp.2⟩
  | bumping bytes loc | unlocking bytes loc =>
    exact ⟨(h.lock hp.1).1, hcaught hp.2.1, h.known _ hp.2.2⟩
  | _ => trivial

/-! ## The looks of a handle -/

omit [Blake3] in
theorem Store.tryRefreshRefs_spec (d : Disk) (s : Store) :
    (s.tryRefreshRefs d).packIndex = s.packIndex ∧
      (s.tryRefreshRefs d).packIndexPos = s.packIndexPos ∧
      ((s.tryRefreshRefs d).refs, (s.tryRefreshRefs d).refsPos) =
        (refreshTail refEntry d.refsTsv s.refs s.refsPos).getD (s.refs, s.refsPos) := by
  unfold Store.tryRefreshRefs Store.refreshRefs
  rcases refreshTail refEntry d.refsTsv s.refs s.refsPos with _ | r
  · exact ⟨rfl, rfl, rfl⟩
  · exact ⟨rfl, rfl, rfl⟩

omit [Blake3] in
theorem Store.finds_iff {d : Disk} {s : Store} {h : Hash} :
    s.Finds d h ↔ h ∈ (s.tryRefreshPackIndex d).packIndex ∨ h ∈ d.objects ∨
      h ∈ (s.tryRefreshRefs d).refs := by
  have hrefs := (Store.tryRefreshRefs_spec d (s.tryRefreshPackIndex d)).2.2
  have hsame : (s.tryRefreshPackIndex d).refs = s.refs ∧
      (s.tryRefreshPackIndex d).refsPos = s.refsPos := by
    unfold Store.tryRefreshPackIndex Store.refreshPackIndex
    rcases refreshTail packEntry d.index s.packIndex s.packIndexPos with _ | r
    · exact ⟨rfl, rfl⟩
    · exact ⟨rfl, rfl⟩
  rw [hsame.1, hsame.2, ← (Store.tryRefreshRefs_spec d s).2.2] at hrefs
  simp only [Store.Finds, Store.recheck, Store.holds, Bool.or_eq_true, decide_eq_true_eq,
    (Store.tryRefreshRefs_spec d (s.tryRefreshPackIndex d)).1, (Prod.mk.inj hrefs).1, or_assoc]

omit [Blake3] in
/-- What a refresh of the index finds at the start, if the index can be read. -/
theorem Store.mem_tryRefreshPackIndex {d : Disk} {s : Store}
    (htext : validUtf8 (d.index.drop s.packIndexPos) = true) {h : Hash} :
    h ∈ (s.tryRefreshPackIndex d).packIndex ↔
      h ∈ s.packIndex ∨ ∃ loc, (h, loc) ∈ packEntries (s.unread d) := by
  unfold Store.tryRefreshPackIndex Store.refreshPackIndex refreshTail
  by_cases hle : d.index.length ≤ s.packIndexPos
  · rw [if_pos hle, Store.unread, List.drop_of_length_le hle]
    simp [complete, entries, pieces]
  · rw [if_neg hle]
    dsimp only
    rw [if_pos htext]
    exact mem_insertAll

omit [Blake3] in
/-- Reading the references again finds no more. -/
theorem Store.readRefs_tryRefreshRefs {d : Disk} {s : Store} (htsv : d.refsTsv = d₀.refsTsv)
    (h : s.refs = s₀.refs ∧ s.refsPos = s₀.refsPos ∨ s.ReadRefs d₀ s₀) :
    (s.tryRefreshRefs d).ReadRefs d₀ s₀ := by
  have hstart := (Store.tryRefreshRefs_spec d₀ s₀).2.2
  have hs := (Store.tryRefreshRefs_spec d s).2.2
  suffices hpair : ((s.tryRefreshRefs d).refs, (s.tryRefreshRefs d).refsPos) =
      ((s₀.tryRefreshRefs d₀).refs, (s₀.tryRefreshRefs d₀).refsPos) from Prod.mk.inj hpair
  rw [htsv] at hs
  rcases h with ⟨hr, hp⟩ | ⟨hr, hp⟩
  · rw [hs, hr, hp, hstart]
  · rw [hs, hr, hp]
    rcases hread : refreshTail refEntry d₀.refsTsv s₀.refs s₀.refsPos with _ | r
    · rw [hread, Option.getD_none] at hstart
      obtain ⟨e1, e2⟩ := Prod.mk.inj hstart
      rw [e1, e2, hread, Option.getD_none]
    · have hagain := refreshTail_twice hread
      rw [hread, Option.getD_some] at hstart
      rw [hstart]
      obtain ⟨e1, e2⟩ := Prod.mk.inj hstart
      rwa [e1, e2]

variable {d : Disk} {s : Store} {news : List Put} {w : Option Writing}

theorem Burst.finds_or_wrote (hS : Burst d₀ s₀ d s news w) {h : Hash}
    (hh : h ∈ s.packIndex ∨ h ∈ d.objects ∨ h ∈ s.refs) :
    s₀.Finds d₀ h ∨ Wrote (written news w) h := by
  rw [Store.finds_iff]
  rcases hh with hh | hh | hh
  · exact (hS.knows h hh).imp_left .inl
  · exact .inl (.inr (.inl (hS.objects ▸ hh)))
  · refine .inl (.inr (.inr ?_))
    rcases hS.refs with ⟨hr, -⟩ | ⟨hr, -⟩
    · have hmore := (Store.tryRefreshRefs_spec d₀ s₀).2.2
      rcases hread : refreshTail refEntry d₀.refsTsv s₀.refs s₀.refsPos with _ | r
      · rw [hread, Option.getD_none] at hmore
        rw [(Prod.mk.inj hmore).1, ← hr]
        exact hh
      · rw [hread, Option.getD_some] at hmore
        rw [(Prod.mk.inj hmore).1]
        rcases refreshTail_cases hread with ⟨-, rfl⟩ | rfl
        · exact hr ▸ hh
        · exact mem_insertAll.mpr (.inl (hr ▸ hh))
    · exact hr ▸ hh

/-- A handle that learns what is there, or moves its cursor past what it knows. -/
theorem Burst.store (hS : Burst d₀ s₀ d s news w) {s' : Store}
    (hrefs : s'.refs = s.refs ∧ s'.refsPos = s.refsPos)
    (hknown : ∀ k ∈ s.packIndex, k ∈ s'.packIndex)
    (hnew : ∀ k ∈ s'.packIndex, k ∈ s.packIndex ∨
      k ∈ (s₀.tryRefreshPackIndex d₀).packIndex ∨ Wrote (written news w) k)
    (hcursor : s'.packIndexPos = s.packIndexPos ∨ s'.Caught d₀ s₀) :
    Burst d₀ s₀ d s' news w where
  objects := hS.objects
  refsTsv := hS.refsTsv
  refs := by rw [Store.ReadRefs, hrefs.1, hrefs.2]; exact hS.refs
  keeps k hk := hknown k (hS.keeps k hk)
  knows k hk := (hnew k hk).elim (hS.knows k) id
  cursor := by
    rcases hcursor with he | hc
    · exact hS.cursor.imp he.trans fun hc => hc.mono hknown he.ge
    · exact .inr hc
  returned k hk := hknown k (hS.returned k hk)
  once := hS.once
  absent := hS.absent
  index := hS.index
  packs := hS.packs
  found := hS.found

theorem Burst.index_prefix (hS : Burst d₀ s₀ d s news w) :
    d.index <+: d₀.index ++ linesOf (written news w) := by
  obtain ⟨added, hindex, hadded⟩ := hS.index
  rw [hindex, ← hadded, ← List.append_assoc]
  exact List.prefix_append _ _

/-- The index can be read from the start of the handle on, as it could at the start. -/
theorem Burst.text (hS : Burst d₀ s₀ d s news w)
    (htext : validUtf8 (d₀.index.drop s₀.packIndexPos) = true) :
    validUtf8 (d.index.drop s₀.packIndexPos) = true := by
  obtain ⟨added, hindex, hadded⟩ := hS.index
  have hascii : ∀ b ∈ added, b < 128 := fun b hb =>
    linesOf_ascii b (hadded ▸ List.mem_append_left _ hb)
  rw [hindex, List.drop_append]
  exact validUtf8_append htext (validUtf8_of_ascii fun b hb => hascii b (List.mem_of_mem_drop hb))

/-- A handle is caught up once it finds nothing to read. -/
theorem Burst.caught_of_nothing (hS : Burst d₀ s₀ d s news w)
    (htext : validUtf8 (d₀.index.drop s₀.packIndexPos) = true)
    (h : complete LF (d.index.drop s.packIndexPos) = []) : s.Caught d₀ s₀ := by
  rcases hS.cursor with hpos | hc
  · have hnone : s₀.unread d₀ = [] := by
      obtain ⟨added, hindex, -⟩ := hS.index
      have hlines : closedLines LF (d₀.index.drop s₀.packIndexPos) = [] := by
        have hall : closedLines LF (d.index.drop s.packIndexPos) = [] := by
          rw [closedLines, h]
          rfl
        rw [hpos, hindex, List.drop_append, closedLines_append] at hall
        exact (List.append_eq_nil_iff.mp hall).1
      rw [Store.unread, ← flatten_pieces (complete LF _)]
      exact congrArg List.flatten hlines
    refine ⟨by rw [hnone, hpos, List.length_nil, Nat.add_zero], fun k hk => ?_⟩
    rcases (Store.mem_tryRefreshPackIndex htext).mp hk with hk | ⟨loc, hk⟩
    · exact hS.keeps k hk
    · rw [hnone] at hk
      simp [entries, pieces] at hk
  · exact hc

/-- A handle is caught up once it has read what it finds. -/
theorem Burst.caught_of_read (hS : Burst d₀ s₀ d s news w)
    (htext : validUtf8 (d₀.index.drop s₀.packIndexPos) = true) :
    Store.Caught { s with
      packIndex := insertAll s.packIndex (packEntries (complete LF (d.index.drop s.packIndexPos)))
      packIndexPos := s.packIndexPos + (complete LF (d.index.drop s.packIndexPos)).length }
        d₀ s₀ := by
  rcases hS.cursor with hpos | hc
  · obtain ⟨added, hindex, -⟩ := hS.index
    have hsplit : d.index.drop s.packIndexPos = s₀.unread d₀ ++
        (torn LF (d₀.index.drop s₀.packIndexPos) ++
          added.drop (s₀.packIndexPos - d₀.index.length)) := by
      rw [Store.unread, ← List.append_assoc, complete_append_torn, hpos, hindex, List.drop_append]
    have hclosed : Terminated LF (s₀.unread d₀) := complete_terminated _
    have hwhole : complete LF (d.index.drop s.packIndexPos) = s₀.unread d₀ ++ complete LF
        (torn LF (d₀.index.drop s₀.packIndexPos) ++
          added.drop (s₀.packIndexPos - d₀.index.length)) := by
      rw [hsplit]
      exact complete_append_closed hclosed _
    refine ⟨?_, fun k hk => mem_insertAll.mpr ?_⟩
    · dsimp only
      rw [hwhole, List.length_append, hpos]
      omega
    · rcases (Store.mem_tryRefreshPackIndex htext).mp hk with hk | ⟨loc, hk⟩
      · exact .inl (hS.keeps k hk)
      · rw [hwhole, packEntries_append hclosed]
        exact .inr ⟨loc, List.mem_append_left _ hk⟩
  · exact hc.mono (fun k hk => mem_insertAll.mpr (.inl hk)) (Nat.le_add_right _ _)

/-- What a handle reads names what was there to read, or a chunk that was written. -/
theorem Burst.names (hS : Burst d₀ s₀ d s news w) {e : Hash × PackLoc}
    (he : e ∈ packEntries (complete LF (d.index.drop s.packIndexPos))) :
    e ∈ packEntries (s₀.unread d₀) ∨ Wrote (written news w) e.1 := by
  obtain ⟨l, hl, hparse⟩ := List.mem_filterMap.mp he
  exact mem_closedLines_drop hS.index_prefix (hS.cursor.imp_right Store.Caught.past) hl hparse

/-! ## One step of a thread -/

/-- What a step of the thread `t` keeps: the burst, what the thread may rely on next, and what the
others do; whoever holds the pack lock has the write that is under way. -/
structure Advances (d₀ : Disk) (s₀ : Store) (t : Nat) (c c' : Shared) (news news' : List Put)
    (w w' : Option Writing) (pc' : Pc) : Prop where
  burst : Burst d₀ s₀ c'.disk c'.handle.store news' w'
  self : pc'.Once d₀ s₀ c' t (written news' w')
  spares : ∀ u, u ≠ t →
    Spares d₀ s₀ u c.handle c'.handle (written news w) (written news' w')
  own : c'.handle.packLock = some t → w' = pc'.underWay
  free : c'.handle.packLock = none → w' = none
  other : ∀ u, u ≠ t → c'.handle.packLock = some u → c.handle.packLock = some u ∧ w' = w

/-- Who has the pack lock has the write that is under way. -/
structure Owns (t : Nat) (c : Shared) (w : Option Writing) (pc : Pc) : Prop where
  own : c.handle.packLock = some t → w = pc.underWay
  free : c.handle.packLock = none → w = none

variable {c : Shared} {i t : Nat} {pc pc' : Pc} {e : Effect} {puts : List Put}

/-- A step outside of a write that concerns the handle only, and not the pack lock. -/
theorem Advances.handle {h : Handle} (ho : Owns t c w pc) (hpc : pc.underWay = none)
    (hpc' : pc'.underWay = none)
    (hB : Burst d₀ s₀ c.disk h.store news w) (hlock : h.packLock = c.handle.packLock)
    (hself : pc'.Once d₀ s₀ { c with handle := h } t (written news w))
    (hknown : ∀ k ∈ c.handle.store.packIndex, k ∈ h.store.packIndex)
    (hmoves : c.handle.store.packIndexPos ≤ h.store.packIndexPos)
    (hcursor : ∀ u, u ≠ t → c.handle.posLock = some u →
      h.posLock = some u ∧ h.store.packIndexPos = c.handle.store.packIndexPos)
    (hrefs : c.handle.store.ReadRefs d₀ s₀ → h.store.ReadRefs d₀ s₀) :
    Advances d₀ s₀ t c { c with handle := h } news news w w pc' where
  burst := hB
  self := hself
  spares u hu := ⟨hknown, hmoves, hcursor u hu, fun hl => ⟨hlock.trans hl, rfl⟩, hrefs, fun _ => id⟩
  own hl := (ho.own (hlock ▸ hl)).trans (hpc.trans hpc'.symm)
  free hl := ho.free (hlock ▸ hl)
  other _ _ hl := ⟨hlock ▸ hl, rfl⟩

/-- A step without an effect. -/
theorem Advances.still (ho : Owns t c w pc) (hpc : pc.underWay = none) (hpc' : pc'.underWay = none)
    (hB : Burst d₀ s₀ c.disk c.handle.store news w) (hself : pc'.Once d₀ s₀ c t (written news w)) :
    Advances d₀ s₀ t c c news news w w pc' :=
  .handle ho hpc hpc' hB rfl hself (fun _ => id) (Nat.le_refl _) (fun _ _ h => ⟨h, rfl⟩) id

/-- A step of a write, of the thread that holds the pack lock before and after it. -/
theorem Advances.locked {c' : Shared} {w' : Option Writing} (hlock : c.handle.packLock = some t)
    (hlock' : c'.handle.packLock = some t) (hB : Burst d₀ s₀ c'.disk c'.handle.store news w')
    (hself : pc'.Once d₀ s₀ c' t (written news w')) (hw' : w' = pc'.underWay)
    (hknown : ∀ k ∈ c.handle.store.packIndex, k ∈ c'.handle.store.packIndex)
    (hmoves : c.handle.store.packIndexPos ≤ c'.handle.store.packIndexPos)
    (hcursor : ∀ u, u ≠ t → c.handle.posLock = some u →
      c'.handle.posLock = some u ∧ c'.handle.store.packIndexPos = c.handle.store.packIndexPos)
    (hrefs : c.handle.store.ReadRefs d₀ s₀ → c'.handle.store.ReadRefs d₀ s₀)
    (hwrote : ∀ k, Wrote (written news w) k → Wrote (written news w') k) :
    Advances d₀ s₀ t c c' news news w w' pc' where
  burst := hB
  self := hself
  spares u hu := ⟨hknown, hmoves, hcursor u hu,
    fun h => absurd (Option.some.inj (h.symm.trans hlock)) hu, hrefs, hwrote⟩
  own _ := hw'
  free h := nomatch hlock'.symm.trans h
  other _ hu h := absurd (Option.some.inj (h.symm.trans hlock')) hu

/-- Such a step that leaves what the handle has read alone. -/
theorem Advances.packing {c' : Shared} {w' : Option Writing} {p : PackState}
    (hlock : c.handle.packLock = some t)
    (hhandle : c'.handle = { c.handle with store := { c.handle.store with packState := p } })
    (hB : Burst d₀ s₀ c'.disk c.handle.store news w')
    (hself : pc'.Once d₀ s₀ c' t (written news w')) (hw' : w' = pc'.underWay)
    (hwrote : ∀ k, Wrote (written news w) k → Wrote (written news w') k) :
    Advances d₀ s₀ t c c' news news w w' pc' := by
  refine .locked hlock (by rw [hhandle]; exact hlock) ?_ hself hw' ?_ ?_ ?_ ?_ hwrote
  · rw [hhandle]
    exact hB.store ⟨rfl, rfl⟩ (fun _ => id) (fun _ => .inl) (.inl rfl)
  · rw [hhandle]
    exact fun _ => id
  · rw [hhandle]
  · rw [hhandle]
    exact fun _ _ h => ⟨h, rfl⟩
  · rw [hhandle]
    exact id

omit [Blake3] in
theorem writesOf_concat_none (news : List Put) (bytes : Bytes) :
    writesOf (news ++ [(bytes, none)]) = writesOf news := by
  simp [writesOf]

omit [Blake3] in
theorem writesOf_concat_some (news : List Put) (bytes : Bytes) (loc : PackLoc) :
    writesOf (news ++ [(bytes, some loc)]) = writesOf news ++ [(bytes, loc)] := by
  simp [writesOf]

/-- A `put` that found its chunk has returned. -/
theorem Burst.dedup (hB : Burst d₀ s₀ d s news w) {bytes : Bytes}
    (h : s₀.Finds d₀ (Hash.of bytes) ∨ Wrote (written news w) (Hash.of bytes)) :
    Burst d₀ s₀ d s (news ++ [(bytes, none)]) w := by
  have hsame : written (news ++ [(bytes, none)]) w = written news w := by
    rw [written, writesOf_concat_none, written]
  refine ⟨hB.objects, hB.refsTsv, hB.refs, hB.keeps, ?_, hB.cursor, ?_, ?_, ?_, ?_, ?_, ?_⟩
  · rw [hsame]
    exact hB.knows
  · rw [writesOf_concat_none]
    exact hB.returned
  · rw [hsame]
    exact hB.once
  · rw [hsame]
    exact hB.absent
  · rw [hsame]
    exact hB.index
  · rw [hsame]
    exact hB.packs
  · rw [hsame]
    intro p hp hno
    rcases List.mem_append.mp hp with hp | hp
    · exact hB.found p hp hno
    · rw [List.mem_singleton.mp hp]
      exact h

/-- A look found the chunk. -/
theorem Advances.found {j : Job} (ho : Owns t c w pc) (hpc : pc.underWay = none)
    (hB : Burst d₀ s₀ c.disk c.handle.store news w)
    (hh : j.hash ∈ c.handle.store.packIndex ∨ j.hash ∈ c.disk.objects ∨
      j.hash ∈ c.handle.store.refs) (hn : some j.found = some (e, pc', puts)) :
    Advances d₀ s₀ t c (e.apply i t c) news (news ++ puts) w w pc' := by
  cases j with
  | has h =>
    cases hn
    rw [List.append_nil]
    exact .still ho hpc rfl hB trivial
  | put bytes =>
    cases hn
    have hB' := hB.dedup (hB.finds_or_wrote hh)
    have hsame : written (news ++ [(bytes, none)]) w = written news w := by
      rw [written, writesOf_concat_none, written]
    refine ⟨hB', trivial, fun u _ => ?_, fun hl => (ho.own hl).trans hpc, ho.free,
      fun u _ hl => ⟨hl, rfl⟩⟩
    rw [hsame]
    exact ⟨fun _ => id, Nat.le_refl _, fun h => ⟨h, rfl⟩, fun h => ⟨h, rfl⟩, id, fun _ => id⟩

/-- The looks of `has`, alone or at the start of a `put`. -/
theorem Advances.has (ho : Owns t c w pc) (hB : Burst d₀ s₀ c.disk c.handle.store news w)
    (hpc : ∃ j, pc = .hasPack j ∨ pc = .hasObject j ∨ pc = .hasRefs j ∨ pc = .hasAgain j)
    (hn : pc.next c = some (e, pc', puts)) :
    Advances d₀ s₀ t c (e.apply i t c) news (news ++ puts) w w pc' := by
  obtain ⟨j, rfl | rfl | rfl | rfl⟩ := hpc
  · simp only [Pc.next] at hn
    split at hn
    · next hm => exact .found ho rfl hB (.inl hm) hn
    · cases hn
      rw [List.append_nil]
      exact .still ho rfl rfl hB trivial
  · simp only [Pc.next] at hn
    split at hn
    · next hm => exact .found ho rfl hB (.inr (.inl hm)) hn
    · cases hn
      rw [List.append_nil]
      exact .still ho rfl rfl hB trivial
  · simp only [Pc.next] at hn
    split at hn
    · next hm => exact .found ho rfl hB (.inr (.inr hm)) hn
    · cases hn
      rw [List.append_nil]
      exact .still ho rfl rfl hB trivial
  · simp only [Pc.next] at hn
    split at hn
    · next hm => exact .found ho rfl hB (.inl hm) hn
    · cases j with
      | has h =>
        cases hn
        rw [List.append_nil]
        exact .still ho rfl rfl hB trivial
      | put bytes =>
        cases hn
        rw [List.append_nil]
        exact .still ho rfl rfl hB trivial

/-- Where a refresh leads to. -/
theorem Return.Holds.once {k : Return} (hk : k.Holds c t)
    (hc : c.handle.store.Caught d₀ s₀) (ws : List (Bytes × PackLoc)) :
    (k.ok.Once d₀ s₀ c t ws ∧ k.ok.underWay = none) ∧
      k.failed.Once d₀ s₀ c t ws ∧ k.failed.underWay = none := by
  cases k with
  | early j => exact ⟨⟨trivial, rfl⟩, trivial, rfl⟩
  | late bytes => exact ⟨⟨⟨hk, hc⟩, rfl⟩, ⟨hk, hc⟩, rfl⟩
  | get h => exact ⟨⟨trivial, rfl⟩, trivial, rfl⟩

/-- Who holds the cursor lock lets it go without having read anything. -/
theorem Advances.letGo {k : Return} (ho : Owns t c w pc) (hpc : pc.underWay = none)
    (hB : Burst d₀ s₀ c.disk c.handle.store news w) (hk : k.Holds c t)
    (hc : c.handle.store.Caught d₀ s₀) (hl : c.handle.posLock = some t) :
    Advances d₀ s₀ t c { c with handle := { c.handle with posLock := none } } news news w w k.ok ∧
      Advances d₀ s₀ t c { c with handle := { c.handle with posLock := none } } news news w w
        k.failed := by
  have hk' : k.Holds { c with handle := { c.handle with posLock := none } } t := by
    cases k <;> exact hk
  have hcursor : ∀ u, u ≠ t → c.handle.posLock = some u → none = some u ∧
      c.handle.store.packIndexPos = c.handle.store.packIndexPos := fun u hu hu' =>
    absurd (Option.some.inj (hu'.symm.trans hl)) hu
  obtain ⟨⟨hok, hokWay⟩, hfailed, hfailedWay⟩ := hk'.once hc (written news w)
  exact ⟨.handle ho hpc hokWay hB rfl hok (fun _ => id) (Nat.le_refl _) hcursor id,
    .handle ho hpc hfailedWay hB rfl hfailed (fun _ => id) (Nat.le_refl _) hcursor id⟩

/-- A refresh of the index ends with a handle that is caught up. -/
theorem Advances.refresh (htext : validUtf8 (d₀.index.drop s₀.packIndexPos) = true)
    (ho : Owns t c w pc) (hB : Burst d₀ s₀ c.disk c.handle.store news w)
    (hp : pc.Once d₀ s₀ c t (written news w))
    (hpc : ∃ k whole n, pc = .refreshLock k ∨ pc = .refreshStat k ∨ pc = .refreshRead k ∨
      pc = .refreshApply k whole ∨ pc = .refreshAdvance k n)
    (hn : pc.next c = some (e, pc', puts)) :
    Advances d₀ s₀ t c (e.apply i t c) news (news ++ puts) w w pc' := by
  obtain ⟨k, whole, n, rfl | rfl | rfl | rfl | rfl⟩ := hpc
  · simp only [Pc.next] at hn
    split at hn
    · next hfree =>
      cases hn
      rw [List.append_nil]
      have hk : k.Holds { c with handle := { c.handle with posLock := some t } } t := by
        cases k <;> exact hp
      refine .handle ho rfl rfl hB rfl ⟨rfl, hk⟩ (fun _ => id) (Nat.le_refl _) (fun u _ hu => ?_) id
      rw [hfree] at hu
      cases hu
    · cases hn
  · obtain ⟨hl, hk⟩ := hp
    simp only [Pc.next] at hn
    split at hn
    · next hle =>
      cases hn
      rw [List.append_nil]
      have hc := hB.caught_of_nothing htext (by rw [List.drop_of_length_le hle]; rfl)
      exact (Advances.letGo ho rfl hB hk hc hl).1
    · cases hn
      rw [List.append_nil]
      exact .still ho rfl rfl hB ⟨hl, hk⟩
  · obtain ⟨hl, hk⟩ := hp
    simp only [Pc.next] at hn
    split at hn
    · split at hn
      · next hnothing =>
        cases hn
        rw [List.append_nil]
        exact (Advances.letGo ho rfl hB hk (hB.caught_of_nothing htext hnothing) hl).1
      · cases hn
        rw [List.append_nil]
        exact .still ho rfl rfl hB ⟨hl, hk, fun _ => hB.names, hB.caught_of_read htext⟩
    · next hbad =>
      cases hn
      rw [List.append_nil]
      have hc : c.handle.store.Caught d₀ s₀ := by
        refine hB.cursor.resolve_left fun hpos => hbad ?_
        rw [hpos]
        exact hB.text htext
      exact (Advances.letGo ho rfl hB hk hc hl).2
  · obtain ⟨hl, hk, hnames, hc⟩ := hp
    cases hn
    rw [List.append_nil]
    have hknown : ∀ k ∈ c.handle.store.packIndex,
        k ∈ insertAll c.handle.store.packIndex (packEntries whole) :=
      fun k hk => mem_insertAll.mpr (.inl hk)
    refine .handle ho rfl rfl (hB.store ⟨rfl, rfl⟩ hknown (fun k hk => ?_) (.inl rfl)) rfl
      ⟨hl, ?_, hc⟩ hknown (Nat.le_refl _) (fun _ _ hu => ⟨hu, rfl⟩) id
    · rcases mem_insertAll.mp hk with hk | ⟨loc, hk⟩
      · exact .inl hk
      · refine .inr ((hnames _ hk).imp_left fun hm => ?_)
        exact (Store.mem_tryRefreshPackIndex htext).mpr (.inr ⟨loc, hm⟩)
    · cases k <;> exact hk
  · obtain ⟨hl, hk, hc⟩ := hp
    cases hn
    rw [List.append_nil]
    have hk' : k.Holds { c with handle := { c.handle with
        posLock := none
        store := { c.handle.store with packIndexPos := c.handle.store.packIndexPos + n } } } t := by
      cases k <;> exact hk
    obtain ⟨⟨h1, h2⟩, -⟩ := hk'.once hc (written news w)
    exact .handle ho rfl h2 (hB.store ⟨rfl, rfl⟩ (fun _ => id) (fun _ => .inl) (.inr hc)) rfl h1
      (fun _ => id) (Nat.le_add_right _ _)
      (fun u hu hu' => absurd (Option.some.inj (hu'.symm.trans hl)) hu) id

theorem Burst.readRefs (hB : Burst d₀ s₀ d s news w) :
    Burst d₀ s₀ d (s.tryRefreshRefs d) news w := by
  obtain ⟨hindex, hpos, -⟩ := Store.tryRefreshRefs_spec d s
  refine ⟨hB.objects, hB.refsTsv, .inr (Store.readRefs_tryRefreshRefs hB.refsTsv hB.refs), ?_, ?_,
    ?_, ?_, hB.once, hB.absent, hB.index, hB.packs, hB.found⟩
  · rw [hindex]
    exact hB.keeps
  · rw [hindex]
    exact hB.knows
  · rw [hpos]
    exact hB.cursor.imp_right fun hc => hc.mono (by rw [hindex]; exact fun _ => id) hpos.ge
  · rw [hindex]
    exact hB.returned

/-- The second look of `put`, under the pack lock: either the chunk is there, or nobody is writing
and it was not there at the start and has not been written since. -/
theorem Advances.recheck (ho : Owns t c w pc) (hB : Burst d₀ s₀ c.disk c.handle.store news w)
    (hp : pc.Once d₀ s₀ c t (written news w))
    (hpc : ∃ bytes, pc = .packLock bytes ∨ pc = .putRefs bytes ∨ pc = .recheckPack bytes ∨
      pc = .recheckObject bytes ∨ pc = .recheckRefs bytes ∨ pc = .dedup bytes)
    (hn : pc.next c = some (e, pc', puts)) :
    Advances d₀ s₀ t c (e.apply i t c) news (news ++ puts) w w pc' := by
  obtain ⟨bytes, rfl | rfl | rfl | rfl | rfl | rfl⟩ := hpc
  · simp only [Pc.next] at hn
    split at hn
    · next hfree =>
      cases hn
      rw [List.append_nil]
      have hnobody : ∀ {u : Nat}, c.handle.packLock = some u → False := fun h => by
        rw [hfree] at h
        cases h
      refine ⟨hB, rfl, fun u _ => ⟨fun _ => id, Nat.le_refl _, fun h => ⟨h, rfl⟩,
        fun h => (hnobody h).elim, id, fun _ => id⟩, fun _ => ho.free hfree, fun h => ?_,
        fun u hu h => ?_⟩
      · cases h
      · cases h
        exact absurd rfl hu
    · cases hn
  · obtain ⟨hlock, hc⟩ := hp
    cases hn
    rw [List.append_nil]
    have hread : (c.handle.store.tryRefreshRefs c.disk).ReadRefs d₀ s₀ :=
      Store.readRefs_tryRefreshRefs hB.refsTsv hB.refs
    obtain ⟨hindex, hpos, -⟩ := Store.tryRefreshRefs_spec c.disk c.handle.store
    have hknown : ∀ k ∈ c.handle.store.packIndex,
        k ∈ (c.handle.store.tryRefreshRefs c.disk).packIndex := by
      rw [hindex]
      exact fun _ => id
    exact .handle ho rfl rfl hB.readRefs rfl ⟨hlock, hc.mono hknown hpos.ge, hread⟩ hknown hpos.ge
      (fun _ _ h => ⟨h, hpos⟩) fun _ => hread
  · obtain ⟨hlock, hc, hread⟩ := hp
    simp only [Pc.next] at hn
    split at hn
    · next hm =>
      cases hn
      rw [List.append_nil]
      exact .still ho rfl rfl hB ⟨hlock, hB.finds_or_wrote (.inl hm)⟩
    · next hm =>
      cases hn
      rw [List.append_nil]
      refine .still ho rfl rfl hB ⟨hlock, hc, hread, fun h => hm (hc.knows _ h), fun h => hm ?_⟩
      rw [ho.own hlock] at h
      exact hB.returned _ (by simpa [written, Pc.underWay] using h)
  · obtain ⟨hlock, hc, hread, hno, hw⟩ := hp
    simp only [Pc.next] at hn
    split at hn
    · next hm =>
      cases hn
      rw [List.append_nil]
      exact .still ho rfl rfl hB ⟨hlock, hB.finds_or_wrote (.inr (.inl hm))⟩
    · next hm =>
      cases hn
      rw [List.append_nil]
      exact .still ho rfl rfl hB ⟨hlock, hc, hread, hno, hB.objects ▸ hm, hw⟩
  · obtain ⟨hlock, hc, hread, hno, hobj, hw⟩ := hp
    simp only [Pc.next] at hn
    split at hn
    · next hm =>
      cases hn
      rw [List.append_nil]
      exact .still ho rfl rfl hB ⟨hlock, hB.finds_or_wrote (.inr (.inr hm))⟩
    · next hm =>
      cases hn
      rw [List.append_nil]
      refine .still ho rfl rfl hB ⟨hlock, hc, fun hf => ?_, hw⟩
      rcases Store.finds_iff.mp hf with hf | hf | hf
      · exact hno hf
      · exact hobj hf
      · exact hm (hread.1 ▸ hf)
  · obtain ⟨hlock, hfound⟩ := hp
    cases hn
    have hsame : written (news ++ [(bytes, none)]) w = written news w := by
      rw [written, writesOf_concat_none, written]
    refine ⟨hB.dedup hfound, trivial, fun u hu => ?_, fun h => ?_, fun _ => ho.own hlock,
      fun u hu h => ?_⟩
    · rw [hsame]
      exact ⟨fun _ => id, Nat.le_refl _, fun h => ⟨h, rfl⟩,
        fun h => absurd (Option.some.inj (h.symm.trans hlock)) hu, id, fun _ => id⟩
    · cases h
    · cases h

/-! ## The steps of a write -/

/-- What lands of a write that is under way. -/
theorem Burst.disk (hB : Burst d₀ s₀ d s news w) {d' : Disk} {w' : Option Writing}
    (hsame : written news w' = written news w) (hobjects : d'.objects = d.objects)
    (htsv : d'.refsTsv = d.refsTsv)
    (hindex : ∃ more, d'.index = d.index ++ more ∧ more ++ lineLeft w' = lineLeft w)
    (hpacks : ∀ id, ∃ more, d'.pack id = d.pack id ++ more ∧
      more ++ chunkLeft id w' = chunkLeft id w) :
    Burst d₀ s₀ d' s news w' := by
  refine ⟨hobjects.trans hB.objects, htsv.trans hB.refsTsv, hB.refs, hB.keeps, ?_, hB.cursor,
    hB.returned, ?_, ?_, ?_, fun id => ?_, ?_⟩
  · rw [hsame]
    exact hB.knows
  · rw [hsame]
    exact hB.once
  · rw [hsame]
    exact hB.absent
  · obtain ⟨more, he, hmore⟩ := hindex
    obtain ⟨added, hd, hadded⟩ := hB.index
    refine ⟨added ++ more, by rw [he, hd, List.append_assoc], ?_⟩
    rw [hsame, List.append_assoc, hmore, hadded]
  · obtain ⟨more, he, hmore⟩ := hpacks id
    rw [hsame, he, List.append_assoc, hmore]
    exact hB.packs id
  · rw [hsame]
    exact hB.found

omit [Blake3] in
theorem bytesTo_concat (id : UInt32) (writes : List (Bytes × PackLoc)) (x : Bytes × PackLoc) :
    bytesTo id (writes ++ [x]) = bytesTo id writes ++ if x.2.packId = id then x.1 else [] := by
  rw [bytesTo, List.filter_append, List.flatMap_append, bytesTo]
  by_cases hid : x.2.packId = id
  · simp [hid]
  · simp [hid]

/-- A write begins, of a chunk that was not there and has not been written. -/
theorem Burst.begin (hB : Burst d₀ s₀ d s news none) {bytes : Bytes} {loc : PackLoc}
    (hno : ¬s₀.Finds d₀ (Hash.of bytes)) (hw : ¬Wrote (written news none) (Hash.of bytes)) :
    Burst d₀ s₀ d s news (some ⟨bytes, loc, bytes, packIndexLine (Hash.of bytes) loc⟩) := by
  have hmore : written news (some ⟨bytes, loc, bytes, packIndexLine (Hash.of bytes) loc⟩) =
      written news none ++ [(bytes, loc)] := by
    simp [written]
  have hwrote : ∀ h, Wrote (written news none ++ [(bytes, loc)]) h ↔
      Wrote (written news none) h ∨ Hash.of bytes = h := by
    intro h
    simp [Wrote, or_and_right, exists_or]
  refine ⟨hB.objects, hB.refsTsv, hB.refs, hB.keeps, fun h hk => ?_, hB.cursor, hB.returned, ?_,
    fun h hm => ?_, ?_, fun id => ?_, fun p hp hnone => ?_⟩
  · rw [hmore, hwrote]
    exact (hB.knows h hk).imp_right .inl
  · rw [hmore, List.map_append, List.map_cons, List.map_nil]
    refine List.nodup_append_comm.mp (List.nodup_cons.mpr ⟨fun hm => hw ?_, hB.once⟩)
    obtain ⟨x, hx, he⟩ := List.mem_map.mp hm
    exact ⟨x, hx, he⟩
  · rw [hmore, hwrote] at hm
    rcases hm with hm | rfl
    · exact hB.absent h hm
    · exact hno
  · obtain ⟨added, hindex, hadded⟩ := hB.index
    refine ⟨added, hindex, ?_⟩
    rw [hmore, linesOf_concat, ← hadded]
    simp [lineLeft]
  · have hpack := hB.packs id
    rw [hmore, bytesTo_concat, ← List.append_assoc, ← hpack]
    simp [chunkLeft]
  · rw [hmore, hwrote]
    exact (hB.found p hp hnone).imp_right .inl

/-- A write has returned, and its chunk is known. -/
theorem Burst.return {bytes : Bytes} {loc : PackLoc}
    (hB : Burst d₀ s₀ d s news (some ⟨bytes, loc, [], []⟩)) (hk : Hash.of bytes ∈ s.packIndex) :
    Burst d₀ s₀ d s (news ++ [(bytes, some loc)]) none := by
  have hsame : written (news ++ [(bytes, some loc)]) none =
      written news (some ⟨bytes, loc, [], []⟩) := by
    simp [written, writesOf_concat_some]
  refine ⟨hB.objects, hB.refsTsv, hB.refs, hB.keeps, ?_, hB.cursor, fun h hm => ?_, ?_, ?_, ?_, ?_,
    ?_⟩
  · rw [hsame]
    exact hB.knows
  · rw [writesOf_concat_some] at hm
    obtain ⟨x, hx, rfl⟩ := hm
    rcases List.mem_append.mp hx with hx | hx
    · exact hB.returned _ ⟨x, hx, rfl⟩
    · rw [List.mem_singleton.mp hx]
      exact hk
  · rw [hsame]
    exact hB.once
  · rw [hsame]
    exact hB.absent
  · rw [hsame]
    exact hB.index
  · rw [hsame]
    intro id
    simpa [chunkLeft] using hB.packs id
  · rw [hsame]
    intro p hp hno
    rcases List.mem_append.mp hp with hp | hp
    · exact hB.found p hp hno
    · rw [List.mem_singleton.mp hp] at hno
      cases hno

omit [Blake3] in
/-- Creating a pack file that may be there already, or adding nothing to one. -/
theorem Disk.pack_insert (d : Disk) (id id' : UInt32) (more : Bytes) :
    Disk.pack { d with packs := d.packs.insert id (d.pack id ++ more) } id' =
      d.pack id' ++ if id = id' then more else [] := by
  unfold Disk.pack
  by_cases he : id = id'
  · subst he
    rw [if_pos rfl, Finmap.lookup_insert]
    rfl
  · rw [if_neg he, Finmap.lookup_insert_of_ne _ (Ne.symm he), List.append_nil]

omit [Blake3] in
/-- The next pack file is created empty. -/
theorem PackState.rotate_pack (d : Disk) (p : PackState) (id : UInt32) :
    (p.rotate d).2.pack id = d.pack id := by
  unfold PackState.rotate
  split
  · have hinsert := d.pack_insert (p.currentId + 1) id []
    rw [List.append_nil] at hinsert
    refine hinsert.trans ?_
    split <;> rw [List.append_nil]
  · rfl

/-- The chunk and its line: a step of a write up to the last byte of the line. -/
theorem Advances.chunk (ho : Owns t c w pc) (hB : Burst d₀ s₀ c.disk c.handle.store news w)
    (hp : pc.Once d₀ s₀ c t (written news w))
    (hpc : ∃ bytes id n loc rest, pc = .rotate bytes ∨ pc = .guardWait bytes ∨ pc = .seek bytes ∨
      pc = .writing bytes id n rest ∨ pc = .appending bytes loc rest)
    (hn : pc.next c = some (e, pc', puts)) :
    ∃ w', Advances d₀ s₀ t c (e.apply i t c) news (news ++ puts) w w' pc' := by
  obtain ⟨bytes, packId, offset, loc, rest, rfl | rfl | rfl | rfl | rfl⟩ := hpc
  · obtain ⟨hlock, hc, hno, hw⟩ := hp
    cases hn
    rw [List.append_nil]
    obtain ⟨packs, hd, -⟩ := PackState.rotate_disk c.disk c.handle.store.packState
    have hpack := PackState.rotate_pack c.disk c.handle.store.packState
    rw [hd] at hpack
    have hB' : Burst d₀ s₀ { c.disk with packs := packs } c.handle.store news w :=
      hB.disk rfl rfl rfl ⟨[], (List.append_nil _).symm, rfl⟩
        fun id => ⟨[], by rw [hpack, List.append_nil], rfl⟩
    simp only [Effect.apply, Shared.setStore, hd]
    exact ⟨w, .packing hlock rfl hB' ⟨hlock, ⟨hc.past, hc.knows⟩, hno, hw⟩ (ho.own hlock)
      fun _ => id⟩
  · obtain ⟨hlock, hc, hno, hw⟩ := hp
    simp only [Pc.next] at hn
    split at hn <;> cases hn
    rw [List.append_nil]
    exact ⟨w, .packing hlock rfl hB ⟨hlock, hc, hno, hw⟩ (ho.own hlock) fun _ => id⟩
  · obtain ⟨hlock, hc, hno, hw⟩ := hp
    obtain rfl : w = none := ho.own hlock
    simp only [Pc.next] at hn
    split at hn <;> cases hn
    rw [List.append_nil]
    refine ⟨_, .packing hlock rfl ((hB.begin hno hw).disk rfl rfl rfl
      ⟨[], (List.append_nil _).symm, rfl⟩ fun id => ⟨[], ?_, rfl⟩) ⟨hlock, hc⟩ rfl ?_⟩
    · refine (c.disk.pack_insert c.handle.store.packState.currentId id []).trans ?_
      split <;> rfl
    · rintro k ⟨x, hx, hk⟩
      exact ⟨x, List.mem_append_left _ (by simpa [written] using hx), hk⟩
  · obtain ⟨hlock, hc⟩ := hp
    simp only [Pc.next] at hn
    split at hn
    · next hrest =>
      cases hn
      rw [List.append_nil]
      subst hrest
      exact ⟨w, .packing hlock rfl hB ⟨hlock, ⟨hc.past, hc.knows⟩⟩ (ho.own hlock) fun _ => id⟩
    · cases hn
  · obtain ⟨hlock, hc⟩ := hp
    simp only [Pc.next] at hn
    split at hn
    · next hrest =>
      cases hn
      rw [List.append_nil]
      subst hrest
      exact ⟨w, .packing hlock rfl hB ⟨hlock, hc⟩ (ho.own hlock) fun _ => id⟩
    · cases hn

/-- The entry: a step of a write from then on. -/
theorem Advances.entry (ho : Owns t c w pc) (hB : Burst d₀ s₀ c.disk c.handle.store news w)
    (hp : pc.Once d₀ s₀ c t (written news w))
    (hpc : ∃ bytes loc, pc = .inserting bytes loc ∨ pc = .bumping bytes loc ∨
      pc = .unlocking bytes loc)
    (hn : pc.next c = some (e, pc', puts)) :
    ∃ w', Advances d₀ s₀ t c (e.apply i t c) news (news ++ puts) w w' pc' := by
  obtain ⟨bytes, loc, rfl | rfl | rfl⟩ := hpc
  · obtain ⟨hlock, hc⟩ := hp
    have hw := ho.own hlock
    cases hn
    rw [List.append_nil]
    have hknown : ∀ k ∈ c.handle.store.packIndex,
        k ∈ c.handle.store.packIndex.insert (Hash.of bytes) loc :=
      fun k hk => Finmap.mem_insert.mpr (.inr hk)
    refine ⟨w, .locked hlock hlock (hB.store ⟨rfl, rfl⟩ hknown (fun k hk => ?_) (.inl rfl))
      ⟨hlock, hc.mono hknown (Nat.le_refl _), Finmap.mem_insert.mpr (.inl rfl)⟩ hw hknown
      (Nat.le_refl _) (fun _ _ h => ⟨h, rfl⟩) id fun _ => id⟩
    rcases Finmap.mem_insert.mp hk with rfl | hk
    · exact .inr (.inr ⟨(bytes, loc), by rw [hw]; simp [written, Pc.underWay], rfl⟩)
    · exact .inl hk
  · obtain ⟨hlock, hc, hk⟩ := hp
    simp only [Pc.next] at hn
    split at hn
    · next hfree =>
      cases hn
      rw [List.append_nil]
      have hc' : Store.Caught { c.handle.store with
          packIndexPos := c.handle.store.packIndexPos + (packIndexLine (Hash.of bytes) loc).length }
          d₀ s₀ := hc.mono (fun _ => id) (Nat.le_add_right _ _)
      refine ⟨w, .locked hlock hlock (hB.store ⟨rfl, rfl⟩ (fun _ => id) (fun _ => .inl) (.inr hc'))
        ⟨hlock, hc', hk⟩ (ho.own hlock) (fun _ => id) (Nat.le_add_right _ _) (fun u _ h => ?_) id
        fun _ => id⟩
      rw [hfree] at h
      cases h
    · cases hn
  · -- the lock is given back, and the write has returned
    obtain ⟨hlock, hc, hk⟩ := hp
    obtain rfl : w = some ⟨bytes, loc, [], []⟩ := ho.own hlock
    cases hn
    refine ⟨none, hB.return hk, trivial, fun u hu => ⟨fun _ => id, Nat.le_refl _,
      fun h => ⟨h, rfl⟩, fun h => ?_, id, ?_⟩, fun h => ?_, fun _ => rfl, fun u _ h => ?_⟩
    · exact absurd (Option.some.inj (h.symm.trans hlock)) hu
    · rintro k ⟨x, hx, hk⟩
      exact ⟨x, by simpa [written, writesOf_concat_some] using hx, hk⟩
    · cases h
    · cases h

/-- Bytes of a write land. -/
theorem Advances.land {n : Nat} (ho : Owns t c w pc)
    (hB : Burst d₀ s₀ c.disk c.handle.store news w) (hp : pc.Once d₀ s₀ c t (written news w))
    (hn : pc.land c n = some (e, pc')) :
    ∃ w', Advances d₀ s₀ t c (e.apply i t c) news news w w' pc' := by
  cases pc with
  | writing bytes packId offset rest =>
    have hw := ho.own hp.1
    simp only [Pc.land] at hn
    split at hn <;> cases hn
    have hsame : written news (Pc.writing bytes packId offset (rest.drop n)).underWay =
        written news w := by
      rw [hw]
      rfl
    refine ⟨_, .packing hp.1 rfl (hB.disk hsame rfl rfl
      ⟨[], (List.append_nil _).symm, by rw [hw]; rfl⟩ fun id =>
        ⟨_, c.disk.pack_insert packId id (rest.take n), ?_⟩) hp rfl fun _ => hsame ▸ id⟩
    rw [hw]
    by_cases hid : packId = id
    · simp [Pc.underWay, chunkLeft, hid]
    · simp [Pc.underWay, chunkLeft, hid]
  | appending bytes loc rest =>
    have hw := ho.own hp.1
    cases hn
    have hsame : written news (Pc.appending bytes loc (rest.drop n)).underWay =
        written news w := by
      rw [hw]
      rfl
    refine ⟨_, .packing hp.1 rfl (hB.disk hsame rfl rfl ⟨rest.take n, rfl, ?_⟩ fun id =>
      ⟨[], (List.append_nil _).symm, by rw [hw]; rfl⟩) hp rfl fun _ => hsame ▸ id⟩
    rw [hw]
    exact List.take_append_drop n rest
  | _ => cases hn

/-- Every step of a thread keeps the burst. -/
theorem Advances.next (htext : validUtf8 (d₀.index.drop s₀.packIndexPos) = true)
    (ho : Owns t c w pc) (hB : Burst d₀ s₀ c.disk c.handle.store news w)
    (hp : pc.Once d₀ s₀ c t (written news w)) (hn : pc.next c = some (e, pc', puts)) :
    ∃ w', Advances d₀ s₀ t c (e.apply i t c) news (news ++ puts) w w' pc' := by
  have hget : pc.underWay = none → pc'.underWay = none → e = .none ∧ puts = [] →
      pc'.Once d₀ s₀ c t (written news w) →
      ∃ w', Advances d₀ s₀ t c (e.apply i t c) news (news ++ puts) w w' pc' := by
    rintro hpc hpc' ⟨rfl, rfl⟩ hself
    rw [List.append_nil]
    exact ⟨w, .still ho hpc hpc' hB hself⟩
  cases pc with
  | idle => cases hn
  | hasPack j => exact ⟨w, .has ho hB ⟨j, by simp⟩ hn⟩
  | hasObject j => exact ⟨w, .has ho hB ⟨j, by simp⟩ hn⟩
  | hasRefs j => exact ⟨w, .has ho hB ⟨j, by simp⟩ hn⟩
  | hasAgain j => exact ⟨w, .has ho hB ⟨j, by simp⟩ hn⟩
  | refreshLock k => exact ⟨w, .refresh htext ho hB hp ⟨k, [], 0, by simp⟩ hn⟩
  | refreshStat k => exact ⟨w, .refresh htext ho hB hp ⟨k, [], 0, by simp⟩ hn⟩
  | refreshRead k => exact ⟨w, .refresh htext ho hB hp ⟨k, [], 0, by simp⟩ hn⟩
  | refreshApply k whole => exact ⟨w, .refresh htext ho hB hp ⟨k, whole, 0, by simp⟩ hn⟩
  | refreshAdvance k n => exact ⟨w, .refresh htext ho hB hp ⟨k, [], n, by simp⟩ hn⟩
  | packLock bytes => exact ⟨w, .recheck ho hB hp ⟨bytes, by simp⟩ hn⟩
  | putRefs bytes => exact ⟨w, .recheck ho hB hp ⟨bytes, by simp⟩ hn⟩
  | recheckPack bytes => exact ⟨w, .recheck ho hB hp ⟨bytes, by simp⟩ hn⟩
  | recheckObject bytes => exact ⟨w, .recheck ho hB hp ⟨bytes, by simp⟩ hn⟩
  | recheckRefs bytes => exact ⟨w, .recheck ho hB hp ⟨bytes, by simp⟩ hn⟩
  | dedup bytes => exact ⟨w, .recheck ho hB hp ⟨bytes, by simp⟩ hn⟩
  | rotate bytes => exact Advances.chunk ho hB hp ⟨bytes, 0, 0, ⟨0, 0, 0⟩, [], by simp⟩ hn
  | guardWait bytes => exact Advances.chunk ho hB hp ⟨bytes, 0, 0, ⟨0, 0, 0⟩, [], by simp⟩ hn
  | seek bytes => exact Advances.chunk ho hB hp ⟨bytes, 0, 0, ⟨0, 0, 0⟩, [], by simp⟩ hn
  | writing bytes packId offset rest =>
    exact Advances.chunk ho hB hp ⟨bytes, packId, offset, ⟨0, 0, 0⟩, rest, by simp⟩ hn
  | appending bytes loc rest => exact Advances.chunk ho hB hp ⟨bytes, 0, 0, loc, rest, by simp⟩ hn
  | inserting bytes loc => exact Advances.entry ho hB hp ⟨bytes, loc, by simp⟩ hn
  | bumping bytes loc => exact Advances.entry ho hB hp ⟨bytes, loc, by simp⟩ hn
  | unlocking bytes loc => exact Advances.entry ho hB hp ⟨bytes, loc, by simp⟩ hn
  | getPack h =>
    simp only [Pc.next] at hn
    split at hn <;> cases hn <;> exact hget rfl rfl ⟨rfl, rfl⟩ trivial
  | getRead h loc =>
    cases hn
    exact hget rfl rfl ⟨rfl, rfl⟩ trivial
  | getObject h =>
    simp only [Pc.next] at hn
    split at hn <;> cases hn <;> exact hget rfl rfl ⟨rfl, rfl⟩ trivial
  | getRef h =>
    simp only [Pc.next] at hn
    split at hn <;> cases hn <;> exact hget rfl rfl ⟨rfl, rfl⟩ trivial
  | getAgain h =>
    simp only [Pc.next] at hn
    split at hn <;> cases hn <;> exact hget rfl rfl ⟨rfl, rfl⟩ trivial

/-! ## Runs -/

/-- Calls and steps of the threads of one handle; bytes land, and no write fails. -/
def Action.Uses (i : Nat) : Action → Prop
  | .call j _ _ | .step j _ | .land j _ _ => j = i
  | _ => False

/-- The handle is open, and none of its threads is in a call. -/
structure Sys.Rests (sys : Sys) (i : Nat) (s : Store) : Prop where
  slot : sys.slots i = .live ⟨s, none, none⟩
  idle : ∀ t, sys.pcs i t = .idle

/-- A state of the machine while threads use the handle. -/
structure Sys.Bursts (d₀ : Disk) (s₀ : Store) (returned : List Put) (i : Nat) (sys : Sys)
    (h : Handle) (news : List Put) (w : Option Writing) : Prop where
  slot : sys.slots i = .live h
  returned : sys.returned = returned ++ news
  burst : Burst d₀ s₀ sys.disk h.store news w
  once : ∀ t, (sys.pcs i t).Once d₀ s₀ (sys.view h) t (written news w)
  owns : ∀ t, Owns t (sys.view h) w (sys.pcs i t)

theorem Sys.Rests.bursts {sys : Sys} (h : sys.Rests i s₀) :
    sys.Bursts sys.disk s₀ sys.returned i ⟨s₀, none, none⟩ [] none := by
  refine ⟨h.slot, (List.append_nil _).symm, ?_, fun t => by rw [h.idle t]; trivial,
    fun t => ⟨fun hl => (by cases hl), fun _ => rfl⟩⟩
  refine ⟨rfl, rfl, .inl ⟨rfl, rfl⟩, fun _ => id, fun k hk => .inl ?_, .inl rfl,
    fun h ⟨_, hx, _⟩ => absurd hx List.not_mem_nil, List.nodup_nil,
    fun h ⟨_, hx, _⟩ => absurd hx List.not_mem_nil, ⟨[], (List.append_nil _).symm, rfl⟩,
    fun id => rfl, fun p hp => absurd hp List.not_mem_nil⟩
  exact (Store.tryRefreshPackIndex_spec sys.disk s₀).2.1 k hk

/-- A step of one thread, for the whole machine. -/
theorem Sys.Bursts.after {sys : Sys} {h : Handle} {returned : List Put}
    (hS : sys.Bursts d₀ s₀ returned i h news w) {c : Shared} {w' : Option Writing}
    (ha : Advances d₀ s₀ t (sys.view h) c news (news ++ puts) w w' pc') :
    (sys.after i t c pc' puts).Bursts d₀ s₀ returned i c.handle (news ++ puts) w' := by
  have hself : (sys.after i t c pc' puts).pcs i t = pc' := by
    simp only [Sys.after, Function.update_self]
  have hothers : ∀ u, u ≠ t → (sys.after i t c pc' puts).pcs i u = sys.pcs i u := by
    intro u hu
    simp only [Sys.after, Function.update_self, Function.update_of_ne hu]
  refine ⟨Function.update_self .., ?_, ha.burst, fun u => ?_, fun u => ?_⟩
  · rw [Sys.after, hS.returned, List.append_assoc]
  · by_cases hu : u = t
    · subst hu
      rw [hself]
      exact ha.self
    · rw [hothers u hu]
      exact (hS.once u).stable (ha.spares u hu)
  · by_cases hu : u = t
    · subst hu
      rw [hself]
      exact ⟨ha.own, ha.free⟩
    · rw [hothers u hu]
      refine ⟨fun hl => ?_, ha.free⟩
      obtain ⟨hl', rfl⟩ := ha.other u hu hl
      exact (hS.owns u).own hl'

/-- Every step of the machine in which a thread uses the handle keeps the burst. -/
theorem Sys.Bursts.step (htext : validUtf8 (d₀.index.drop s₀.packIndexPos) = true)
    {sys sys' : Sys} {h : Handle} {returned : List Put} {a : Action}
    (hS : sys.Bursts d₀ s₀ returned i h news w) (ha : a.Uses i) (hs : sys.step a = some sys') :
    ∃ h' news' w', sys'.Bursts d₀ s₀ returned i h' news' w' := by
  cases a with
  | «open» | openStep | fault | tear | crash => cases ha
  | call j t r =>
    obtain rfl : j = i := ha
    obtain ⟨h', hlive, hidle, rfl⟩ := Sys.call_eq_some hs
    obtain rfl := Slot.live.inj (hS.slot.symm.trans hlive)
    have hadv : Advances d₀ s₀ t (sys.view h) (sys.view h) news (news ++ []) w w r.start := by
      rw [List.append_nil]
      refine .still (hS.owns t) (by rw [hidle]; rfl) ?_ hS.burst ?_
      · cases r <;> rfl
      · cases r <;> trivial
    exact ⟨_, _, _, hS.after hadv⟩
  | step j t =>
    obtain rfl : j = i := ha
    obtain ⟨h', e, pc, puts, hlive, hn, rfl⟩ := Sys.step_eq_some hs
    obtain rfl := Slot.live.inj (hS.slot.symm.trans hlive)
    obtain ⟨w', hadv⟩ := Advances.next (i := j) htext (hS.owns t) hS.burst (hS.once t) hn
    exact ⟨_, _, _, hS.after hadv⟩
  | land j t n =>
    obtain rfl : j = i := ha
    obtain ⟨h', e, pc, hlive, hn, rfl⟩ := Sys.land_eq_some (by simpa only [Sys.step] using hs)
    obtain rfl := Slot.live.inj (hS.slot.symm.trans hlive)
    obtain ⟨w', hadv⟩ := Advances.land (i := j) (hS.owns t) hS.burst (hS.once t) hn
    exact ⟨_, _, _, hS.after (by rwa [List.append_nil])⟩

/-- A `put` goes on with its chunk until it returns. -/
theorem Pc.next_returns (hn : pc.next c = some (e, pc', puts)) {bytes : Bytes}
    (hb : pc.chunk = some bytes) : pc'.chunk = some bytes ∨ ∃ p ∈ puts, p.1 = bytes := by
  have hok : ∀ k : Return, k.chunk = some bytes → k.ok.chunk = some bytes := by
    intro k h
    rcases k with (_ | _) | _ | _ <;> exact h
  have hfailed : ∀ k : Return, k.chunk = some bytes → k.failed.chunk = some bytes := by
    intro k h
    rcases k with (_ | _) | _ | _
    · exact h
    · exact h
    · exact h
    · cases h
  have hfound : ∀ j : Job, some j.found = some (e, pc', puts) → j.chunk = some bytes →
      pc'.chunk = some bytes ∨ ∃ p ∈ puts, p.1 = bytes := by
    intro j hj hb
    cases j with
    | has h => cases hb
    | put b =>
      cases hj
      cases hb
      exact .inr ⟨_, List.mem_singleton.mpr rfl, rfl⟩
  cases pc with
  | idle | getPack | getRead | getObject | getRef | getAgain => cases hb
  | hasAgain j =>
    simp only [Pc.next] at hn
    split at hn
    · exact hfound j hn hb
    · cases j with
      | has h => cases hb
      | put b =>
        cases hn
        exact .inl hb
  | refreshStat k =>
    simp only [Pc.next] at hn
    split at hn <;> cases hn
    · exact .inl (hok k hb)
    · exact .inl hb
  | refreshRead k =>
    simp only [Pc.next] at hn
    split at hn
    · split at hn <;> cases hn
      · exact .inl (hok k hb)
      · exact .inl hb
    · cases hn
      exact .inl (hfailed k hb)
  | refreshAdvance k n =>
    cases hn
    exact .inl (hok k hb)
  | dedup | unlocking =>
    cases hn
    exact .inr ⟨_, List.mem_singleton.mpr rfl, Option.some.inj hb⟩
  | _ =>
    simp only [Pc.next] at hn
    repeat' split at hn
    all_goals first
      | exact hfound _ hn hb
      | cases hn <;> exact .inl hb

/-- A `put` of the chunk is being made. -/
def Sys.Puts (sys : Sys) (i : Nat) (bytes : Bytes) : Prop := ∃ t, (sys.pcs i t).chunk = some bytes

/-- A step goes on with every `put`, or it returns. -/
theorem Sys.step_puts {sys sys' : Sys} {a : Action} (bytes : Bytes) (ha : a.Uses i)
    (hs : sys.step a = some sys') : ∃ puts, sys'.returned = sys.returned ++ puts ∧
      ((sys.Puts i bytes ∨ ∃ t, a = .call i t (.put bytes)) →
        sys'.Puts i bytes ∨ ∃ p ∈ puts, p.1 = bytes) := by
  have hgoes : ∀ {t : Nat} {c : Shared} {pc : Pc} {puts : List Put},
      ((sys.pcs i t).chunk = some bytes → pc.chunk = some bytes ∨ ∃ p ∈ puts, p.1 = bytes) →
      sys.Puts i bytes → (sys.after i t c pc puts).Puts i bytes ∨ ∃ p ∈ puts, p.1 = bytes := by
    rintro t c pc puts hself ⟨u, hu⟩
    by_cases hut : u = t
    · subst hut
      refine (hself hu).imp_left fun h => ⟨u, ?_⟩
      simpa only [Sys.after, Function.update_self] using h
    · refine .inl ⟨u, ?_⟩
      simpa only [Sys.after, Function.update_self, Function.update_of_ne hut] using hu
  cases a with
  | «open» | openStep | fault | tear | crash => cases ha
  | call j t r =>
    obtain rfl : j = i := ha
    obtain ⟨h, -, hidle, rfl⟩ := Sys.call_eq_some hs
    refine ⟨[], rfl, ?_⟩
    rintro (hputs | ⟨u, he⟩)
    · exact hgoes (fun h => by rw [hidle] at h; cases h) hputs
    · cases he
      refine .inl ⟨t, ?_⟩
      simp only [Sys.after, Function.update_self]
      rfl
  | step j t =>
    obtain rfl : j = i := ha
    obtain ⟨h, e, pc, puts, -, hn, rfl⟩ := Sys.step_eq_some hs
    refine ⟨puts, rfl, ?_⟩
    rintro (hputs | ⟨u, he⟩)
    · exact hgoes (Pc.next_returns hn) hputs
    · cases he
  | land j t n =>
    obtain rfl : j = i := ha
    obtain ⟨h, e, pc, -, hn, rfl⟩ := Sys.land_eq_some (by simpa only [Sys.step] using hs)
    refine ⟨[], rfl, ?_⟩
    rintro (hputs | ⟨u, he⟩)
    · exact hgoes (fun h => .inl ((Pc.land_chunk hn).trans h)) hputs
    · cases he

/-- Every `put` that was called has returned, or is being made. -/
theorem Sys.put_returns {bytes : Bytes} {returned : List Put} {as : List Action} {sys sys' : Sys}
    (news : List Put) (huses : ∀ a ∈ as, a.Uses i) (hr : runs Sys.step sys as = some sys')
    (hnews : sys.returned = returned ++ news)
    (hput : sys.Puts i bytes ∨ (∃ p ∈ news, p.1 = bytes) ∨ ∃ t, .call i t (.put bytes) ∈ as) :
    ∃ news', sys'.returned = returned ++ news' ∧
      (sys'.Puts i bytes ∨ ∃ p ∈ news', p.1 = bytes) := by
  induction as generalizing sys news with
  | nil =>
    cases hr
    refine ⟨news, hnews, ?_⟩
    rcases hput with h | h | ⟨t, ht⟩
    · exact .inl h
    · exact .inr h
    · cases ht
  | cons a as ih =>
    obtain ⟨mid, hs, hrest⟩ := runs_cons.mp hr
    obtain ⟨puts, hmid, hgoes⟩ := Sys.step_puts bytes (huses a List.mem_cons_self) hs
    refine ih (news ++ puts) (fun b hb => huses b (List.mem_cons_of_mem _ hb)) hrest
      (by rw [hmid, hnews, List.append_assoc]) ?_
    have hlater : mid.Puts i bytes ∨ (∃ p ∈ puts, p.1 = bytes) →
        mid.Puts i bytes ∨ (∃ p ∈ news ++ puts, p.1 = bytes) ∨ ∃ t, .call i t (.put bytes) ∈ as :=
      fun h => h.imp_right fun ⟨p, hp, he⟩ => .inl ⟨p, List.mem_append_right _ hp, he⟩
    rcases hput with h | ⟨p, hp, he⟩ | ⟨t, ht⟩
    · exact hlater (hgoes (.inl h))
    · exact .inr (.inl ⟨p, List.mem_append_left _ hp, he⟩)
    · rcases List.mem_cons.mp ht with rfl | ht
      · exact hlater (hgoes (.inr ⟨t, rfl⟩))
      · exact .inr (.inr ⟨t, ht⟩)

/-- What a burst of puts leaves behind. -/
structure WrittenOnce (d₀ : Disk) (s₀ : Store) (d : Disk) (news : List Put) : Prop where
  /-- Each `put` that wrote added its line to the index, and its bytes to a pack file. -/
  index : d.index = d₀.index ++ linesOf (writesOf news)
  packs : ∀ id, d.pack id = d₀.pack id ++ bytesTo id (writesOf news)
  /-- Of the puts of a chunk that was not there one wrote it. -/
  absent : ∀ h, ¬s₀.Finds d₀ h → (∃ p ∈ news, Hash.of p.1 = h) →
    (writesOf news).countP (fun x => Hash.of x.1 = h) = 1
  /-- Of the others none wrote. -/
  present : ∀ h, s₀.Finds d₀ h → (writesOf news).countP (fun x => Hash.of x.1 = h) = 0

/-- A burst in which no write is under way. -/
theorem Burst.writtenOnce (hB : Burst d₀ s₀ d s news none) : WrittenOnce d₀ s₀ d news := by
  have hall : written news none = writesOf news := List.append_nil _
  have hone := hB.once
  rw [hall, List.nodup_iff_count_le_one] at hone
  have hcount : ∀ h, (writesOf news).countP (fun x => Hash.of x.1 = h) =
      ((writesOf news).map fun x => Hash.of x.1).count h := by
    intro h
    rw [List.count, List.countP_map]
    congr 1
  refine ⟨?_, fun id => ?_, fun h hno hput => ?_, fun h hf => ?_⟩
  · obtain ⟨added, hindex, hadded⟩ := hB.index
    rw [hall, lineLeft, Option.map_none, Option.getD_none, List.append_nil] at hadded
    rw [hindex, hadded]
  · have hpack := hB.packs id
    rwa [hall, chunkLeft, Option.map_none, Option.getD_none, List.append_nil] at hpack
  · have hwrote : Wrote (writesOf news) h := by
      obtain ⟨⟨bytes, loc⟩, hp, rfl⟩ := hput
      cases loc with
      | none => exact hall ▸ (hB.found _ hp rfl).resolve_left hno
      | some loc => exact ⟨(bytes, loc), List.mem_filterMap.mpr ⟨_, hp, rfl⟩, rfl⟩
    obtain ⟨x, hx, he⟩ := hwrote
    have hmem : h ∈ (writesOf news).map fun x => Hash.of x.1 := List.mem_map.mpr ⟨x, hx, he⟩
    have hpos := List.count_pos_iff.mpr hmem
    have hle := hone h
    rw [hcount]
    omega
  · refine List.countP_eq_zero.mpr fun x hx he => ?_
    exact hB.absent h ⟨x, hall ▸ hx, of_decide_eq_true he⟩ hf

/-- Concurrent puts of one handle write each chunk once, whatever their threads and the order of
their steps. No write fails, and the index can be read. -/
theorem concurrent_puts_write_once {sys sys' : Sys} {as : List Action} (hrest : sys.Rests i s₀)
    (htext : validUtf8 (sys.disk.index.drop s₀.packIndexPos) = true)
    (huses : ∀ a ∈ as, a.Uses i) (hr : runs Sys.step sys as = some sys')
    (hend : ∀ t, sys'.pcs i t = .idle) :
    ∃ news, sys'.returned = sys.returned ++ news ∧
      (∀ t bytes, .call i t (.put bytes) ∈ as → ∃ p ∈ news, p.1 = bytes) ∧
      WrittenOnce sys.disk s₀ sys'.disk news := by
  obtain ⟨h, news, w, hB⟩ := runs_invariant
    (I := fun x => ∃ h news w, x.Bursts sys.disk s₀ sys.returned i h news w)
    (fun _ _ _ ⟨_, _, _, hI⟩ ha hs => hI.step htext ha hs)
    ⟨_, _, _, hrest.bursts⟩ (along_of_mem sys huses) hr
  have hnone : w = none := by
    cases hlock : h.packLock with
    | none => exact (hB.owns 0).free hlock
    | some t =>
      rw [(hB.owns t).own hlock, hend t]
      rfl
  subst hnone
  refine ⟨news, hB.returned, fun t bytes hcall => ?_, hB.burst.writtenOnce⟩
  obtain ⟨news', hnews, hdone⟩ := Sys.put_returns [] huses hr (List.append_nil _).symm
    (.inr (.inr ⟨t, hcall⟩))
  obtain rfl := List.append_cancel_left (hnews.symm.trans hB.returned)
  refine hdone.resolve_left ?_
  rintro ⟨u, hu⟩
  rw [hend u] at hu
  cases hu

end

/-- The first look of a `put` of a chunk that the handle does not have. -/
def Action.looking (i t : Nat) (bytes : Bytes) : List Action :=
  .call i t (.put bytes) :: List.replicate 6 (.step i t)

/-- Two threads of a handle that put the same chunk: the second one takes the pack lock once the
first has returned. -/
def putTwice : List Action :=
  Action.looking 0 0 [120] ++ Action.looking 0 1 [120] ++
    List.replicate 10 (.step 0 0) ++ [.land 0 0 1, .step 0 0] ++ Action.finishing 0 0 ++
    List.replicate 6 (.step 0 1)

/-- A machine with one open handle. -/
def Sys.single (d : Disk) (s : Store) : Sys :=
  ⟨d, none, fun _ => .live ⟨s, none, none⟩, fun _ _ => .idle, []⟩

/-- Both threads have looked before either takes the pack lock; one of them writes. -/
theorem concurrent_puts_write_x_once :
    let _ := blake3OfX
    ∃ sys, runs Sys.step (Sys.single (Disk.fresh ∅ ∅ some) Store.fresh) putTwice = some sys ∧
      sys.returned = [([120], some ⟨0, 0, 1⟩), ([120], none)] ∧
      WrittenOnce (Disk.fresh ∅ ∅ some) Store.fresh sys.disk sys.returned := by
  let _ := blake3OfX
  have hrun : (runs Sys.step (Sys.single (Disk.fresh ∅ ∅ some) Store.fresh) putTwice).map
      (fun sys => (sys.returned, (sys.pcs 0 0).isIdle, (sys.pcs 0 1).isIdle)) =
        some ([([120], some ⟨0, 0, 1⟩), ([120], none)], true, true) := by
    decide +kernel
  obtain ⟨sys, hr, hm⟩ := Option.map_eq_some_iff.mp hrun
  simp only [Prod.mk.injEq] at hm
  obtain ⟨hreturned, hfirst, hsecond⟩ := hm
  have huses : ∀ a ∈ putTwice, a.Uses 0 := by
    simp [putTwice, Action.looking, Action.finishing, Action.Uses]
  have hidle : ∀ {pc : Pc}, pc.isIdle = true → pc = .idle := by
    intro pc h
    cases pc with
    | idle => rfl
    | _ => cases h
  have hend : ∀ t, sys.pcs 0 t = .idle := by
    intro t
    by_cases ht : t = 0 ∨ t = 1
    · rcases ht with rfl | rfl
      · exact hidle hfirst
      · exact hidle hsecond
    · refine Sys.idle_of_uncalled rfl (fun a ha r e => ?_) hr
      subst e
      simp [putTwice, Action.looking, Action.finishing] at ha
      omega
  have hrest : (Sys.single (Disk.fresh ∅ ∅ some) Store.fresh).Rests 0 Store.fresh :=
    ⟨rfl, fun _ => rfl⟩
  obtain ⟨news, hnews, -, honce⟩ := concurrent_puts_write_once hrest rfl huses hr hend
  obtain rfl : sys.returned = news := hnews
  exact ⟨sys, hr, hreturned, honce⟩

end Np2ptp
