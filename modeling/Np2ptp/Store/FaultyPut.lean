import Np2ptp.Store.RefLog
import Np2ptp.Store.WriteOnce

/-!
# A put under an I/O error

A full disk makes a `put` fail after any part of the chunk or of its index line, and the part stays
(`Store.faultyPut`). A reader whose cursor stands between two lines does not see the torn line
(`refreshTail_complete`), nor does an opening, which trims it: both see the trimmed directory. No
later `put` trims it, so the next line is appended right behind it, and the two are one line that is
read as no entry (`packEntries_trimmed_glued`).
-/

namespace Np2ptp

open Lib

/-! ## Where it strikes -/

/-- Where an I/O error strikes a `put`: at the opening of the next pack file, or when the first `n`
bytes of the chunk or of its index line are written. -/
inductive Fault where
  | rotate
  | chunk (n : Nat)
  | line (n : Nat)
  deriving DecidableEq

/-- `PackState::write` under an error. -/
def PackState.faultyWrite (d : Disk) (p : PackState) (bytes : Bytes) :
    Option Fault → Option (UInt32 × UInt64) × PackState × Disk
  | some .rotate =>
    -- the id is already the next one, the file and its size are still the old ones
    (none, if PACK_ROTATE_SIZE ≤ p.currentSize then ⟨p.currentId + 1, p.currentSize⟩ else p, d)
  | some (.chunk n) =>
    let (p, d) := p.rotate d
    let content := (d.packs.lookup p.currentId).getD []
    let written := content ++ bytes.take (min n (MAX_FILE - content.length))
    (none, p, { d with packs := d.packs.insert p.currentId written })
  | _ => p.write d bytes

/-- The chunk fits the pack file that it would be written to. -/
def PackState.HasRoom (d : Disk) (p : PackState) (bytes : Bytes) : Prop :=
  (((p.rotate d).2.packs.lookup (p.rotate d).1.currentId).getD []).length + bytes.length ≤ MAX_FILE

instance (d : Disk) (p : PackState) (bytes : Bytes) : Decidable (p.HasRoom d bytes) :=
  inferInstanceAs (Decidable (_ ≤ _))

/-- A write succeeds if and only if there is room. -/
theorem PackState.write_eq_none (d : Disk) (p : PackState) (bytes : Bytes) :
    (p.write d bytes).1 = none ↔ ¬ p.HasRoom d bytes := by
  rw [PackState.HasRoom, Nat.not_le]
  unfold PackState.write
  dsimp only
  split
  · next hfull => exact ⟨fun _ => hfull, fun _ => rfl⟩
  · next hfit => exact ⟨fun h => (by cases h), fun h => absurd h hfit⟩

/-- The error leaves the chunk alone: it strikes at the index line, or not at all. -/
def Fault.SparesChunk (fault : Option Fault) : Prop := fault = none ∨ ∃ n, fault = some (.line n)

/-- Everything a write under an error can do: it fails and has at most added bytes to a pack file,
or the error leaves the chunk alone, and it is a write that succeeds. -/
theorem PackState.faultyWrite_cases (d : Disk) (p : PackState) (bytes : Bytes)
    (fault : Option Fault) :
    (¬ (fault = none ∧ p.HasRoom d bytes) ∧ ∃ q packs, PacksGrow d.packs packs ∧
      p.faultyWrite d bytes fault = (none, q, { d with packs := packs })) ∨
    (Fault.SparesChunk fault ∧ p.HasRoom d bytes ∧ ∃ at' q d',
      p.write d bytes = (some at', q, d') ∧ p.faultyWrite d bytes fault = (some at', q, d')) := by
  have hgrows : ∃ q packs, PacksGrow d.packs packs ∧ (¬ Fault.SparesChunk fault →
      p.faultyWrite d bytes fault = (none, q, { d with packs := packs })) := by
    match fault with
    | none => exact ⟨p, d.packs, .refl _, fun h => absurd (.inl rfl) h⟩
    | some (.line n) => exact ⟨p, d.packs, .refl _, fun h => absurd (.inr ⟨n, rfl⟩) h⟩
    | some .rotate => exact ⟨_, d.packs, .refl _, fun _ => rfl⟩
    | some (.chunk n) =>
      obtain ⟨packs, hd, hgrow⟩ := PackState.rotate_disk d p
      rcases hr : p.rotate d with ⟨q, d'⟩
      rw [hr] at hd
      subst hd
      refine ⟨q, _, hgrow.trans (.insert packs q.currentId (bytes.take (min n
        (MAX_FILE - ((packs.lookup q.currentId).getD []).length)))), fun _ => ?_⟩
      rw [PackState.faultyWrite, hr]
  by_cases hspares : Fault.SparesChunk fault
  · have hwrite : p.faultyWrite d bytes fault = p.write d bytes := by
      rcases hspares with rfl | ⟨n, rfl⟩
      · rfl
      · rfl
    have hroom := PackState.write_eq_none d p bytes
    rw [hwrite]
    rcases hw : p.write d bytes with ⟨_ | at', q, d'⟩
    · obtain ⟨packs, rfl, hgrow⟩ := PackState.write_disk hw
      rw [hw] at hroom
      exact .inl ⟨fun h => hroom.mp rfl h.2, q, packs, hgrow, rfl⟩
    · rw [hw] at hroom
      exact .inr ⟨hspares, not_not.mp fun h => (by cases hroom.mpr h), at', q, d', rfl, rfl⟩
  · obtain ⟨q, packs, hgrow, he⟩ := hgrows
    exact .inl ⟨fun h => hspares (.inl h.1), q, packs, hgrow, he hspares⟩

section

variable [Blake3]

/-- The part of `Store::put` that writes, once the second look has not found the chunk. -/
def Store.faultyPack (d : Disk) (s : Store) (bytes : Bytes) (fault : Option Fault) :
    Except StoreError (Hash × Bool) × Disk × Store :=
  let h := Hash.of bytes
  match s.packState.faultyWrite d bytes fault with
  | (none, packState, d) => (.error .io, d, { s with packState := packState })
  | (some (packId, offset), packState, d) =>
    let loc := ⟨packId, offset, UInt32.ofNat bytes.length⟩
    let line := packIndexLine h loc
    match fault with
    | some (.line n) =>
      (.error .io, { d with index := d.index ++ line.take n }, { s with packState := packState })
    | _ =>
      (.ok (h, true), { d with index := d.index ++ line },
        { s with
          packState := packState
          packIndex := s.packIndex.insert h loc
          packIndexPos := s.packIndexPos + line.length })

/-- `Store::put` under an error. -/
def Store.faultyPut (d : Disk) (s : Store) (bytes : Bytes) (fault : Option Fault) :
    Except StoreError (Hash × Bool) × Disk × Store :=
  let h := Hash.of bytes
  match s.has d h with
  | (true, s) => (.ok (h, false), d, s)
  | (false, s) =>
    let s := (s.tryRefreshPackIndex d).tryRefreshRefs d
    if s.holds d h then (.ok (h, false), d, s) else s.faultyPack d bytes fault

/-- Where no error strikes it is a `put`. -/
theorem Store.faultyPut_none (d : Disk) (s : Store) (bytes : Bytes) :
    s.faultyPut d bytes none = s.put d bytes := rfl

omit [Blake3] in
/-- What `has` finds, a second look finds as well. -/
theorem Store.finds_of_has {d : Disk} {s : Store} {h : Hash} (hh : (s.has d h).1 = true) :
    s.Finds d h := by
  obtain ⟨-, hmore, -⟩ := Store.tryRefreshPackIndex_spec d s
  have hrefs : ∀ g ∈ s.refs, g ∈ (s.tryRefreshRefs d).refs := by
    intro g hg
    obtain ⟨-, -, hr⟩ := Store.tryRefreshRefs_spec d s
    rcases hrefresh : refreshTail refEntry d.refsTsv s.refs s.refsPos with _ | r
    · rw [hrefresh] at hr
      rw [(Prod.mk.inj hr).1]
      exact hg
    · rw [hrefresh] at hr
      rw [(Prod.mk.inj hr).1]
      rcases refreshTail_cases hrefresh with ⟨-, rfl⟩ | rfl
      · exact hg
      · exact mem_insertAll.mpr (.inl hg)
  rw [Store.has_eq, Bool.or_eq_true, decide_eq_true_eq, Store.holds] at hh
  simp only [Bool.or_eq_true, decide_eq_true_eq] at hh
  rw [Store.finds_iff]
  rcases hh with ((hp | ho) | hr) | hp
  · exact .inl (hmore h hp)
  · exact .inr (.inl ho)
  · exact .inr (.inr (hrefs h hr))
  · exact .inl hp

/-- A `put` under an error finds the chunk, and leaves the directory as it is, or a second look does
not find it, and it is written. -/
theorem Store.faultyPut_cases (d : Disk) (s : Store) (bytes : Bytes) (fault : Option Fault) :
    (s.Finds d (Hash.of bytes) ∧ ∃ s', s.faultyPut d bytes fault =
      (.ok (Hash.of bytes, false), d, s') ∧
        (s' = s ∨ s' = s.tryRefreshPackIndex d ∨ s' = s.recheck d)) ∨
    (¬ s.Finds d (Hash.of bytes) ∧
      s.faultyPut d bytes fault = (s.recheck d).faultyPack d bytes fault) := by
  rcases Store.has_cases d s (Hash.of bytes) with ⟨hh, he⟩ | ⟨hh, he⟩
  · refine .inl ⟨Store.finds_of_has (by rw [he]), s, ?_, .inl rfl⟩
    rw [Store.faultyPut, he]
  by_cases hm : Hash.of bytes ∈ (s.tryRefreshPackIndex d).packIndex
  · refine .inl ⟨Store.finds_of_has (by rw [he, decide_eq_true hm]), _, ?_, .inr (.inl rfl)⟩
    rw [Store.faultyPut, he, decide_eq_true hm]
  -- the second look is at the handle that `has` refreshed, which a refresh leaves as it is
  have hput : s.faultyPut d bytes fault = if (s.recheck d).holds d (Hash.of bytes) then
      (.ok (Hash.of bytes, false), d, s.recheck d)
      else (s.recheck d).faultyPack d bytes fault := by
    rw [Store.faultyPut, he, decide_eq_false hm]
    dsimp only
    rw [(Store.tryRefreshPackIndex_spec d s).2.2]
    rfl
  by_cases hfinds : s.Finds d (Hash.of bytes)
  · exact .inl ⟨hfinds, s.recheck d, hput.trans (if_pos hfinds), .inr (.inr rfl)⟩
  · exact .inr ⟨hfinds, hput.trans (if_neg hfinds)⟩

/-- What writing does: it fails before the index line; or there is room, the chunk is written, and
the line is cut or written too. -/
theorem Store.faultyPack_cases (d : Disk) (s : Store) (bytes : Bytes) (fault : Option Fault) :
    (¬ (fault = none ∧ s.packState.HasRoom d bytes) ∧ ∃ q packs, PacksGrow d.packs packs ∧
      s.faultyPack d bytes fault =
        (.error .io, { d with packs := packs }, { s with packState := q })) ∨
    (s.packState.HasRoom d bytes ∧ ∃ id offset q d',
      s.packState.write d bytes = (some (id, offset), q, d') ∧
      let loc : PackLoc := ⟨id, offset, UInt32.ofNat bytes.length⟩
      let line := packIndexLine (Hash.of bytes) loc
      (∃ n, fault = some (.line n) ∧ s.faultyPack d bytes fault =
        (.error .io, { d' with index := d'.index ++ line.take n }, { s with packState := q })) ∨
      (fault = none ∧ s.faultyPack d bytes fault =
        (.ok (Hash.of bytes, true), { d' with index := d'.index ++ line },
          { s with
            packState := q
            packIndex := s.packIndex.insert (Hash.of bytes) loc
            packIndexPos := s.packIndexPos + line.length }))) := by
  rcases s.packState.faultyWrite_cases d bytes fault with
    ⟨hno, q, packs, hgrow, hw⟩ | ⟨hspares, hroom, ⟨id, offset⟩, q, d', hwrite, hw⟩
  · exact .inl ⟨hno, q, packs, hgrow, by rw [Store.faultyPack, hw]⟩
  · refine .inr ⟨hroom, id, offset, q, d', hwrite, ?_⟩
    rcases hspares with rfl | ⟨n, rfl⟩
    · exact .inr ⟨rfl, by rw [Store.faultyPack, hw]⟩
    · exact .inl ⟨n, rfl, by rw [Store.faultyPack, hw]⟩

/-! ## The directory as an opening sees it -/

/-- The directory without the torn line of its index. -/
def Disk.trimmed (d : Disk) : Disk := { d with index := complete LF d.index }

omit [Blake3] in
theorem Disk.trimmed_of_closed {d : Disk} (h : Terminated LF d.index) : d.trimmed = d := by
  rw [Disk.trimmed, h.complete_eq]

omit [Blake3] in
/-- A torn line is not seen by a reader whose cursor stands between two lines before it. -/
theorem refreshTail_complete {ν : Type} {parse : Bytes → Option (Hash × ν)} {log : Bytes}
    {m : HashMap Hash ν} {pos : Nat} {known : Hash → Prop} (htext : validUtf8 log = true)
    (h : Follows LF parse (complete LF log) pos known) :
    refreshTail parse log m pos = refreshTail parse (complete LF log) m pos := by
  have hle := h.le
  have hsplit : complete LF log ++ torn LF log = log := complete_append_torn log
  have hdrop : log.drop pos = (complete LF log).drop pos ++ torn LF log := by
    rw [← List.drop_append_of_le_length hle, hsplit]
  have hclosed : Terminated LF ((complete LF log).drop pos) := by
    have hall : Terminated LF (complete LF log) := complete_terminated log
    rw [← List.take_append_drop pos (complete LF log)] at hall
    exact hall.of_append
  have hrest : validUtf8 (log.drop pos) = true := by
    rw [← hsplit, ← List.take_append_drop pos (complete LF log), List.append_assoc,
      ← hdrop] at htext
    exact (validUtf8_of_closed_append h.boundary htext).2
  have hwhole : validUtf8 ((complete LF log).drop pos) = true :=
    (validUtf8_of_closed_append hclosed (hdrop ▸ hrest)).1
  have hcomplete : complete LF (log.drop pos) = (complete LF log).drop pos := by
    rw [hdrop]
    exact complete_of_append hclosed (notMem_torn log)
  rw [refreshTail_eq hwhole hclosed hle]
  unfold refreshTail
  split
  · next hend =>
    have hlen : log.length = (complete LF log).length + (torn LF log).length := by
      rw [← List.length_append, hsplit]
    rw [List.drop_of_length_le (by omega), show pos = (complete LF log).length by omega]
    rfl
  · simp only [hrest, if_true, hcomplete, List.length_drop]
    congr 2
    omega

variable {d : Disk} {s : Store}

omit [Blake3] in
theorem Store.refreshPackIndex_trimmed (htext : validUtf8 d.index = true)
    (hs : s.Sound d.trimmed) : s.refreshPackIndex d = s.refreshPackIndex d.trimmed := by
  rw [Store.refreshPackIndex, refreshTail_complete htext hs.index]
  rfl

/-- The handle after a refresh of the index. -/
theorem Store.tryRefreshPackIndex_trimmed (htext : validUtf8 d.index = true)
    (hd : d.trimmed.Sound) (hs : s.Sound d.trimmed) :
    s.tryRefreshPackIndex d = s.indexRead d.trimmed := by
  rw [← Store.tryRefreshPackIndex_eq hd hs, Store.tryRefreshPackIndex,
    Store.refreshPackIndex_trimmed htext hs]
  rfl

/-- The handle after the second look. -/
theorem Store.recheck_trimmed (htext : validUtf8 d.index = true) (hd : d.trimmed.Sound)
    (hs : s.Sound d.trimmed) : s.recheck d = (s.indexRead d.trimmed).refsRead d.trimmed := by
  rw [Store.recheck, Store.tryRefreshPackIndex_trimmed htext hd hs,
    ← Store.tryRefreshRefs_eq hd (hs.indexRead hd)]
  rfl

theorem Store.get_trimmed (htext : validUtf8 d.index = true) (hs : s.Sound d.trimmed) (h : Hash) :
    s.get d h = s.get d.trimmed h := by
  unfold Store.get
  rw [Store.refreshPackIndex_trimmed htext hs]
  rfl

omit [Blake3] in
/-- Opening trims the index. -/
theorem Store.open_trimmed (htext : validUtf8 d.index = true) (hrefs : validUtf8 d.refsTsv = true)
    (hclosed : Terminated LF d.refsTsv) : Store.open d = Store.open d.trimmed := by
  rw [Store.open_torn htext hrefs, hclosed.complete_eq]
  rfl

/-- A line that is cut, or glued to a torn one, adds its own entry at most. -/
theorem Disk.trimmed_append {packs : HashMap UInt32 Bytes} {h : Hash} {loc : PackLoc}
    (htext : validUtf8 d.index = true) (hgrow : PacksGrow d.packs packs)
    (hpacked : Disk.Packed { d with packs := packs } h loc) (hnew : h ∉ d.objects) (n : Nat) :
    d.trimmed.Extends (Disk.trimmed
      { d with packs := packs, index := d.index ++ (packIndexLine h loc).take n }) := by
  have htorn : validUtf8 (torn LF d.index) = true := by
    have hsplit : complete LF d.index ++ torn LF d.index = d.index := complete_append_torn _
    exact (validUtf8_of_closed_append (complete_terminated d.index) (hsplit.symm ▸ htext)).2
  have hline : validUtf8 (torn LF d.index ++ (packIndexLine h loc).take n) = true :=
    validUtf8_append htorn (validUtf8_of_ascii fun b hb =>
      packIndexLine_ascii h loc b (List.mem_of_mem_take hb))
  refine ⟨hgrow, ⟨complete LF (torn LF d.index ++ (packIndexLine h loc).take n),
    complete_append _ _, complete_terminated _, ?_, fun e he => ?_⟩,
    ⟨[], (List.append_nil _).symm, terminated_nil, rfl⟩, rfl⟩
  · have hsplit : complete LF (torn LF d.index ++ (packIndexLine h loc).take n) ++ torn LF _ = _ :=
      complete_append_torn _
    exact (validUtf8_of_closed_append (complete_terminated _) (hsplit.symm ▸ hline)).1
  · obtain ⟨l, hl, hle⟩ := List.mem_filterMap.mp he
    have hnone : closedLines LF (torn LF d.index) = [] :=
      closedLines_append_of_notMem (s := []) (notMem_torn _)
    rcases mem_closedLines_append_take hl with hl | hsuff
    · rw [hnone] at hl
      cases hl
    · obtain ⟨body, -, rfl⟩ := eq_concat_of_mem_pieces (complete_terminated _) hl
      rw [packEntry_fragment (by simp) (.inr hsuff) hle, packEntry_packIndexLine] at hle
      cases hle
      exact ⟨hpacked, hnew⟩

omit [Blake3] in
/-- Behind a torn line a whole one is lost. -/
theorem packEntries_trimmed_glued {h : Hash} {loc : PackLoc} (htorn : ¬ Terminated LF d.index) :
    packEntries (complete LF (d.index ++ packIndexLine h loc)) =
      packEntries (complete LF d.index) := by
  have hne : torn LF d.index ≠ [] := by
    intro hnil
    have hsplit : complete LF d.index ++ torn LF d.index = d.index := complete_append_torn _
    rw [hnil, List.append_nil] at hsplit
    exact htorn (hsplit ▸ complete_terminated d.index)
  have hlost : packEntry (torn LF d.index ++ packIndexText h loc ++ [LF]) = none := by
    rw [List.append_assoc]
    exact packEntry_glued hne
  show (closedLines LF _).filterMap packEntry = _
  rw [packIndexLine, closedLines_append_line (LF_notMem_packIndexText h loc),
    List.filterMap_append, List.filterMap_cons_none hlost, List.filterMap_nil, List.append_nil]
  rfl

end

end Np2ptp
