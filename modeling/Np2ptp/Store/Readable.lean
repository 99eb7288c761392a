import Np2ptp.Store.Lookup

/-!
# What a handle can read, and what a put leaves of it

In a directory whose index lines lead to their chunks, what a sound handle can `get` is what it
serves (`Store.reads_iff`). A `put` adds a line for its own chunk and takes nothing from the
directory (`Store.put_gains`); from the handle it can take a chunk, for on its second look it reads
the references that others have added, and a later one replaces an earlier one. `Store.PutSafe` is
what must hold for the chunk to be there afterwards and for the others to stay.
-/

namespace Np2ptp

open Lib

section

variable [Blake3] {d d' : Disk} {s s' : Store} {h : Hash} {bytes : Bytes}

/-- Every line of the index leads to bytes of its hash. -/
def Disk.LinesRead (d : Disk) : Prop :=
  ∀ e ∈ packEntries d.index, ∃ bytes, d.readFromPack e.2 = some bytes ∧ Hash.of bytes = e.1

/-- `get` returns the chunk. -/
def Store.Reads (d : Disk) (s : Store) (h : Hash) : Prop :=
  ∃ bytes, (s.get d h).1 = .ok (some bytes)

/-! ## What `get` reads -/

theorem Store.getFromPackIndex_reads (hs : s.Sound d) (hl : d.LinesRead) (hm : h ∈ s.packIndex) :
    ∃ bytes, s.getFromPackIndex d h = .ok (some bytes) := by
  obtain ⟨loc, hloc⟩ := Finmap.mem_iff.mp hm
  obtain ⟨bytes, hr, hh⟩ := hl _ (hs.listed h loc hloc)
  refine ⟨bytes, ?_⟩
  simp only [Store.getFromPackIndex, hloc, hr, checkRead_of_eq hh]

/-- What a handle reads is what it serves. -/
theorem Store.reads_iff (hd : d.Sound) (ho : d.ObjectsIntact) (hs : s.Sound d)
    (hl : d.LinesRead) : s.Reads d h ↔ s.Serves d h := by
  unfold Store.Reads Store.get
  by_cases hp : h ∈ s.packIndex
  · obtain ⟨bytes, hget⟩ := Store.getFromPackIndex_reads hs hl hp
    simp only [hget]
    exact ⟨fun _ => .inl hp, fun _ => ⟨bytes, rfl⟩⟩
  rw [Store.getFromPackIndex_of_notMem hp]
  by_cases hobj : h ∈ d.objects
  · obtain ⟨bytes, hlook⟩ := Finmap.mem_iff.mp hobj
    have hget : d.getObject h = .ok (some bytes) := by
      rw [Disk.getObject, hlook]
      exact checkRead_of_eq (ho h bytes hlook)
    simp only [hget]
    exact ⟨fun _ => .inr (.inl hobj), fun _ => ⟨bytes, rfl⟩⟩
  simp only [Disk.getObject_of_notMem hobj, Store.refreshPackIndex_eq hd hs]
  -- what is left after the references: the index, read once more
  have hafter : (∃ bytes, (s.indexRead d).getFromPackIndex d h = .ok (some bytes)) ↔
      d.Indexed h := by
    constructor
    · rintro ⟨bytes, hget⟩
      by_contra hi
      have hno : h ∉ (s.indexRead d).packIndex := fun hm =>
        ((Store.indexRead_mem hs h).mp hm).elim hp hi
      rw [Store.getFromPackIndex_of_notMem hno] at hget
      cases hget
    · intro hi
      exact Store.getFromPackIndex_reads (hs.indexRead hd) hl
        ((Store.indexRead_mem hs h).mpr (.inr hi))
  cases href : s.refs.lookup h with
  | none =>
    have hnone : s.getReference d h = .ok none := by
      rw [Store.getReference, href]
    simp only [hnone]
    refine hafter.trans ?_
    simp [Store.Serves, hp, hobj, href]
  | some loc =>
    by_cases hlive : d.RefLive h loc
    · obtain ⟨content, bytes, hfile, hr, hh⟩ := hlive
      have hget : s.getReference d h = .ok (some bytes) := by
        simp only [Store.getReference, href, hfile, hr, checkRead_of_eq hh]
      simp only [hget]
      exact ⟨fun _ => .inr (.inr (.inl ⟨loc, href, content, bytes, hfile, hr, hh⟩)),
        fun _ => ⟨bytes, rfl⟩⟩
    · by_cases hfile : d.sources.lookup loc.path = none
      · have hnone : s.getReference d h = .ok none := by
          simp only [Store.getReference, href, hfile]
        simp only [hnone]
        refine hafter.trans ?_
        simp [Store.Serves, hp, hobj, href, hlive, hfile]
      · obtain ⟨e, he⟩ := Store.getReference_of_dead href hlive hfile
        simp [he, Store.Serves, hp, hobj, href, hlive, hfile]

/-! ## Asking for a chunk -/

/-- What `has` reports. -/
theorem Store.has_iff (hd : d.Sound) (hs : s.Sound d) : (s.has d h).1 = true ↔
    h ∈ s.refs ∨ h ∈ d.objects ∨ d.Indexed h := by
  rcases Store.has_cases d s h with ⟨hh, he⟩ | ⟨hh, he⟩
  · simp only [Store.holds, Bool.or_eq_true, decide_eq_true_eq] at hh
    rw [he]
    refine ⟨fun _ => ?_, fun _ => rfl⟩
    rcases hh with (hp | ho) | hr
    · exact .inr (.inr (hs.indexed hp))
    · exact .inr (.inl ho)
    · exact .inl hr
  · simp only [Store.holds, Bool.or_eq_false_iff, decide_eq_false_iff_not] at hh
    rw [he, Store.tryRefreshPackIndex_eq hd hs, decide_eq_true_iff, Store.indexRead_mem hs]
    simp [hh.1.1, hh.1.2, hh.2]

/-- Asking leaves the handle alone or has read the index. -/
theorem Store.has_handle (hd : d.Sound) (hs : s.Sound d) (h : Hash) :
    (s.has d h).2 = s ∨ (s.has d h).2 = s.indexRead d := by
  rcases Store.has_cases d s h with ⟨-, he⟩ | ⟨-, he⟩
  · exact .inl (by rw [he])
  · exact .inr (by rw [he, Store.tryRefreshPackIndex_eq hd hs])

/-- Reading the index takes no chunk away. -/
theorem Store.Serves.indexRead (hs : s.Sound d) (h' : s.Serves d h) :
    (s.indexRead d).Serves d h := by
  rcases h' with hp | ho | hr | hi
  · exact .inl ((Store.indexRead_mem hs h).mpr (.inl hp))
  · exact .inr (.inl ho)
  · exact .inr (.inr (.inl hr))
  · exact .inr (.inr (.inr hi))

theorem Store.has_sound (hd : d.Sound) (hs : s.Sound d) (h : Hash) : (s.has d h).2.Sound d := by
  rcases Store.has_handle hd hs h with he | he
  · rw [he]
    exact hs
  · rw [he]
    exact hs.indexRead hd

/-- Asking for a chunk takes no chunk away. -/
theorem Store.Serves.has (hd : d.Sound) (hs : s.Sound d) (h' : s.Serves d h) (g : Hash) :
    (s.has d g).2.Serves d h := by
  rcases Store.has_handle hd hs g with he | he
  · rw [he]
    exact h'
  · rw [he]
    exact h'.indexRead hs

/-! ## A put -/

/-- A put of these bytes stores them, and what it reads of `refs.tsv` on the way takes no chunk
away: a reference that comes in for a chunk that is only referenced is live. -/
structure Store.PutSafe (d : Disk) (s : Store) (bytes : Bytes) : Prop where
  small : bytes.length < 2 ^ 32
  recoverable : s.Recoverable d (Hash.of bytes)
  keeps : ∀ h loc, s.Serves d h → s.unreadRef d h = some loc →
    d.Indexed h ∨ h ∈ d.objects ∨ d.RefLive h loc

/-- On the second look of a put the handle serves what it served. -/
theorem Store.Serves.recheck (hd : d.Sound) (hs : s.Sound d) (hsafe : s.PutSafe d bytes)
    (h' : s.Serves d h) : ((s.tryRefreshPackIndex d).recheck d).Serves d h := by
  rw [Store.recheck_eq hd hs]
  have hpack : d.Indexed h → (((s.indexRead d).indexRead d).refsRead d).Serves d h := fun hi =>
    .inl ((Store.indexRead_mem (hs.indexRead hd) h).mpr (.inr hi))
  rcases h' with hp | ho | ⟨loc, hloc, hlive⟩ | ⟨hi, -⟩
  · exact hpack (hs.indexed hp)
  · exact .inr (.inl ho)
  · have hlook : (((s.indexRead d).indexRead d).refsRead d).refs.lookup h =
        (s.unreadRef d h).or (s.refs.lookup h) := lookup_insertAll_or
    cases hunread : s.unreadRef d h with
    | none =>
      rw [hunread, Option.none_or] at hlook
      exact .inr (.inr (.inl ⟨loc, hlook.trans hloc, hlive⟩))
    | some loc' =>
      rw [hunread, Option.some_or] at hlook
      rcases hsafe.keeps h loc' (.inr (.inr (.inl ⟨loc, hloc, hlive⟩))) hunread with
        hi | ho | hlive'
      · exact hpack hi
      · exact .inr (.inl ho)
      · exact .inr (.inr (.inl ⟨loc', hlook, hlive'⟩))
  · exact hpack hi

/-- What was served is served after a safe put, also one that fails. -/
theorem Store.Serves.put {r : Except StoreError (Hash × Bool)} (hd : d.Sound) (hs : s.Sound d)
    (hsafe : s.PutSafe d bytes) (hput : s.put d bytes = (r, d', s')) (h' : s.Serves d h) :
    s'.Serves d' h := by
  have hre := h'.recheck hd hs hsafe
  rcases Store.put_cases d s bytes with ⟨-, he⟩ | ⟨-, -, he⟩ | ⟨-, -, ⟨-, he⟩ | ⟨-, hw⟩⟩
  · rw [hput] at he
    cases he
    exact h'
  · rw [hput, Store.tryRefreshPackIndex_eq hd hs] at he
    cases he
    exact h'.indexRead hs
  · rw [hput] at he
    cases he
    exact hre
  · rcases hw with ⟨p, d1, hw, he⟩ | ⟨id, offset, p, d1, hw, he⟩
    · obtain ⟨packs, rfl, -⟩ := PackState.write_disk hw
      rw [hput] at he
      cases he
      exact hre
    · obtain ⟨packs, rfl, -⟩ := PackState.write_disk hw
      rw [hput] at he
      cases he
      rcases hre with hp | ho | hr | ⟨⟨loc, hloc⟩, hfile⟩
      · exact .inl (Finmap.mem_insert.mpr (.inr hp))
      · exact .inr (.inl ho)
      · exact .inr (.inr (.inl hr))
      · refine .inr (.inr (.inr ⟨⟨loc, ?_⟩, hfile⟩))
        dsimp only
        rw [packEntries_append hd.indexClosed]
        exact List.mem_append_left _ hloc

/-! ## What a put adds to the directory -/

/-- The directory has gained lines for some hashes, and has lost nothing. -/
structure Disk.Gains (d d' : Disk) (hashes : List Hash) : Prop where
  packs : PacksGrow d.packs d'.packs
  index : ∃ more, packEntries d'.index = packEntries d.index ++ more ∧ ∀ e ∈ more, e.1 ∈ hashes
  refs : d'.refsTsv = d.refsTsv
  objects : d'.objects = d.objects
  sources : d'.sources = d.sources

omit [Blake3] in
theorem Disk.Gains.refl (d : Disk) (hashes : List Hash) : d.Gains d hashes :=
  ⟨.refl _, ⟨[], by simp, by simp⟩, rfl, rfl, rfl⟩

omit [Blake3] in
theorem Disk.Gains.trans {d₁ d₂ d₃ : Disk} {hashes : List Hash} (h : d₁.Gains d₂ hashes)
    (h' : d₂.Gains d₃ hashes) : d₁.Gains d₃ hashes := by
  obtain ⟨more, hmore, hin⟩ := h.index
  obtain ⟨more', hmore', hin'⟩ := h'.index
  refine ⟨h.packs.trans h'.packs, ⟨more ++ more', ?_, fun e he => ?_⟩, h'.refs.trans h.refs,
    h'.objects.trans h.objects, h'.sources.trans h.sources⟩
  · rw [hmore', hmore, List.append_assoc]
  · exact (List.mem_append.mp he).elim (hin e) (hin' e)

/-- A put adds a line for its own chunk at most. -/
theorem Store.put_gains {r : Except StoreError (Hash × Bool)} {hashes : List Hash} (hd : d.Sound)
    (hput : s.put d bytes = (r, d', s')) (hmem : Hash.of bytes ∈ hashes) : d.Gains d' hashes := by
  rcases Store.put_cases d s bytes with ⟨-, he⟩ | ⟨-, -, he⟩ | ⟨-, -, ⟨-, he⟩ | ⟨-, hw⟩⟩
  · rw [hput] at he
    cases he
    exact .refl _ _
  · rw [hput] at he
    cases he
    exact .refl _ _
  · rw [hput] at he
    cases he
    exact .refl _ _
  · rcases hw with ⟨p, d1, hw, he⟩ | ⟨id, offset, p, d1, hw, he⟩
    · obtain ⟨packs, rfl, hgrow⟩ := PackState.write_disk hw
      rw [hput] at he
      cases he
      exact ⟨hgrow, ⟨[], by simp, by simp⟩, rfl, rfl, rfl⟩
    · obtain ⟨packs, rfl, hgrow⟩ := PackState.write_disk hw
      rw [hput] at he
      cases he
      refine ⟨hgrow, ⟨_, packEntries_append hd.indexClosed, fun e hmore => ?_⟩, rfl, rfl, rfl⟩
      rw [packEntries_packIndexLine, List.mem_singleton] at hmore
      rwa [hmore]

/-- After a put of less than 4 GiB the lines of the index still lead to their chunks. -/
theorem Disk.LinesRead.put {r : Except StoreError (Hash × Bool)} (hl : d.LinesRead) (hd : d.Sound)
    (hlen : bytes.length < 2 ^ 32) (hput : s.put d bytes = (r, d', s')) : d'.LinesRead := by
  have hgrown : ∀ {packs}, PacksGrow d.packs packs → ∀ e ∈ packEntries d.index,
      ∃ bytes, Disk.readFromPack { d with packs := packs } e.2 = some bytes ∧
        Hash.of bytes = e.1 := by
    intro packs hgrow e he
    obtain ⟨old, hr, hh⟩ := hl e he
    have hread : Disk.readFromPack { d with packs := packs } e.2 = some old :=
      hgrow.readFromPack hr
    exact ⟨old, hread, hh⟩
  rcases Store.put_cases d s bytes with ⟨-, he⟩ | ⟨-, -, he⟩ | ⟨-, -, ⟨-, he⟩ | ⟨-, hw⟩⟩
  · rw [hput] at he
    cases he
    exact hl
  · rw [hput] at he
    cases he
    exact hl
  · rw [hput] at he
    cases he
    exact hl
  · rcases hw with ⟨p, d1, hw, he⟩ | ⟨id, offset, p, d1, hw, he⟩
    · obtain ⟨packs, rfl, hgrow⟩ := PackState.write_disk hw
      rw [hput] at he
      cases he
      exact hgrown hgrow
    · obtain ⟨packs, old, hd1, hgrow, hlook, hoffset, hfit⟩ := PackState.write_ok hw
      subst hd1
      rw [hput] at he
      cases he
      intro e hmem
      dsimp only at hmem
      rw [packEntries_append hd.indexClosed, packEntries_packIndexLine, List.mem_append,
        List.mem_singleton] at hmem
      rcases hmem with hmem | rfl
      · exact hgrown hgrow e hmem
      · have hr : readAt (old ++ bytes ++ []) offset _ = some bytes :=
          readAt_written hoffset hfit hlen
        rw [List.append_nil] at hr
        exact ⟨bytes, Option.bind_eq_some_iff.mpr ⟨_, hlook, hr⟩, rfl⟩

/-! ## A series of puts -/

/-- What safe puts of listed chunks have done since the directory was `d₀` and the handle `s₀`: the
chunks `stored` are there, and so is what was there before. -/
structure Store.Gathered (d₀ : Disk) (s₀ : Store) (hashes : List Hash) (d : Disk) (s : Store)
    (stored : List Bytes) : Prop where
  disk : d.Sound
  objects : d.ObjectsIntact
  handle : s.Sound d
  lines : d.LinesRead
  gains : d₀.Gains d hashes
  kept : ∀ h, s₀.Serves d₀ h → s.Serves d h
  listed : ∀ bytes ∈ stored, Hash.of bytes ∈ hashes
  held : ∀ bytes ∈ stored, s.Serves d (Hash.of bytes)

variable {d₀ : Disk} {s₀ : Store} {hashes : List Hash} {stored : List Bytes}

/-- One put more, which may fail. -/
theorem Store.Gathered.put {r : Except StoreError (Hash × Bool)}
    (h : Store.Gathered d₀ s₀ hashes d s stored) (hsafe : s.PutSafe d bytes)
    (hput : s.put d bytes = (r, d', s')) (hlisted : Hash.of bytes ∈ hashes) :
    Store.Gathered d₀ s₀ hashes d' s' stored := by
  have hgains := Store.put_gains h.disk hput hlisted
  obtain ⟨hext, hsound⟩ := Store.put_sound h.disk h.handle bytes
  rw [hput] at hext hsound
  exact
    { disk := h.disk.extend hext
      objects := fun g old hl => h.objects g old (hgains.objects ▸ hl)
      handle := hsound
      lines := h.lines.put h.disk hsafe.small hput
      gains := h.gains.trans hgains
      kept := fun g hg => (h.kept g hg).put h.disk h.handle hsafe hput
      listed := h.listed
      held := fun b hb => (h.held b hb).put h.disk h.handle hsafe hput }

/-- One put more that succeeds. -/
theorem Store.Gathered.put_ok {r : Hash × Bool} (h : Store.Gathered d₀ s₀ hashes d s stored)
    (hsafe : s.PutSafe d bytes) (hput : s.put d bytes = (.ok r, d', s'))
    (hlisted : Hash.of bytes ∈ hashes) :
    Store.Gathered d₀ s₀ hashes d' s' (stored ++ [bytes]) := by
  have hthis : s'.Serves d' (Hash.of bytes) :=
    (Store.serves_after_put h.disk h.handle hput).mpr hsafe.recoverable
  have h' := h.put hsafe hput hlisted
  refine { h' with listed := fun b hb => ?_, held := fun b hb => ?_ }
  · rcases List.mem_append.mp hb with hb | hb
    · exact h.listed b hb
    · rw [List.mem_singleton.mp hb]
      exact hlisted
  · rcases List.mem_append.mp hb with hb | hb
    · exact h'.held b hb
    · rw [List.mem_singleton.mp hb]
      exact hthis

end

end Np2ptp
