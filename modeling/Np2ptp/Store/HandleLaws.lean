import Np2ptp.Store.Handle

/-!
# What the calls on a handle do

One lemma a function that says everything the function can do, for the invariants to build on:
a write into a pack file only ever adds bytes to one (`PackState.write_ok`), a refresh of a sound
sidecar reads it to its end (`refreshTail_eq`), and a `put` finds the chunk, fails to write it, or
writes it and adds its line (`Store.put_cases`).
-/

namespace Np2ptp

open Lib

/-! ## Pack files grow -/

/-- Every pack file is still there and has at most gained bytes. -/
def PacksGrow (packs packs' : HashMap UInt32 Bytes) : Prop :=
  ∀ id content, packs.lookup id = some content → ∃ more, packs'.lookup id = some (content ++ more)

theorem PacksGrow.refl (packs : HashMap UInt32 Bytes) : PacksGrow packs packs :=
  fun _ content h => ⟨[], by rw [h, List.append_nil]⟩

theorem PacksGrow.trans {p q r : HashMap UInt32 Bytes} (h : PacksGrow p q) (h' : PacksGrow q r) :
    PacksGrow p r := by
  intro id content hl
  obtain ⟨more, hm⟩ := h id content hl
  obtain ⟨more', hm'⟩ := h' id _ hm
  exact ⟨more ++ more', by rw [hm', List.append_assoc]⟩

/-- Adding bytes to one pack file, new or not. -/
theorem PacksGrow.insert (packs : HashMap UInt32 Bytes) (id : UInt32) (more : Bytes) :
    PacksGrow packs (packs.insert id ((packs.lookup id).getD [] ++ more)) := by
  intro id' content hl
  by_cases he : id' = id
  · subst he
    exact ⟨more, by rw [Finmap.lookup_insert, hl]; rfl⟩
  · exact ⟨[], by rw [Finmap.lookup_insert_of_ne _ he, hl, List.append_nil]⟩

/-- A rotation creates a pack file at most. -/
theorem PackState.rotate_disk (d : Disk) (p : PackState) : ∃ packs,
    (p.rotate d).2 = { d with packs := packs } ∧ PacksGrow d.packs packs := by
  unfold PackState.rotate
  split
  · refine ⟨_, rfl, ?_⟩
    have h := PacksGrow.insert d.packs (p.currentId + 1) []
    rwa [List.append_nil] at h
  · exact ⟨d.packs, rfl, .refl _⟩

/-- Everything a write can do: it adds some bytes to a pack file at most, and where it succeeds they
are the bytes it was given, at the place that it tells. -/
theorem PackState.write_cases {d d' : Disk} {p p' : PackState} {bytes : Bytes}
    {r : Option (UInt32 × UInt64)} (h : p.write d bytes = (r, p', d')) :
    ∃ packs, d' = { d with packs := packs } ∧ PacksGrow d.packs packs ∧
      ∀ id offset, r = some (id, offset) → ∃ old, packs.lookup id = some (old ++ bytes) ∧
        offset.toNat = old.length ∧ old.length + bytes.length ≤ MAX_FILE := by
  unfold PackState.write at h
  obtain ⟨packs, hd, hgrow⟩ := PackState.rotate_disk d p
  rcases hr : p.rotate d with ⟨p1, d1⟩
  rw [hr] at h hd
  subst hd
  dsimp only at h
  split at h
  · cases h
    refine ⟨_, rfl, hgrow.trans (.insert _ _ _), fun id offset hsome => ?_⟩
    cases hsome
  · next hfit =>
    cases h
    refine ⟨_, rfl, hgrow.trans (.insert _ _ _), fun id offset hsome => ?_⟩
    cases hsome
    have hle := Nat.not_lt.mp hfit
    have hmax : MAX_FILE < 2 ^ 64 := by decide
    have hlt : _ < 2 ^ 64 := (Nat.le_of_add_right_le hle).trans_lt hmax
    exact ⟨_, Finmap.lookup_insert _, UInt64.toNat_ofNat_of_lt' hlt, hle⟩

/-- A write that succeeds puts the bytes at the end of a pack file, and tells where. -/
theorem PackState.write_ok {d d' : Disk} {p p' : PackState} {bytes : Bytes} {id : UInt32}
    {offset : UInt64} (h : p.write d bytes = (some (id, offset), p', d')) :
    ∃ packs old, d' = { d with packs := packs } ∧ PacksGrow d.packs packs ∧
      packs.lookup id = some (old ++ bytes) ∧ offset.toNat = old.length ∧
      old.length + bytes.length ≤ MAX_FILE := by
  obtain ⟨packs, hd, hgrow, hsome⟩ := PackState.write_cases h
  obtain ⟨old, hlookup, hoffset, hfit⟩ := hsome id offset rfl
  exact ⟨packs, old, hd, hgrow, hlookup, hoffset, hfit⟩

/-- A write adds some bytes to a pack file at most, also when it fails. -/
theorem PackState.write_disk {d d' : Disk} {p p' : PackState} {bytes : Bytes}
    {r : Option (UInt32 × UInt64)} (h : p.write d bytes = (r, p', d')) :
    ∃ packs, d' = { d with packs := packs } ∧ PacksGrow d.packs packs := by
  obtain ⟨packs, hd, hgrow, -⟩ := PackState.write_cases h
  exact ⟨packs, hd, hgrow⟩

/-! ## Reading a sidecar -/

/-- A refresh of a closed text reads it to its end. -/
theorem refreshTail_eq {ν : Type} {parse : Bytes → Option (Hash × ν)} {log : Bytes}
    {m : HashMap Hash ν} {pos : Nat} (htext : validUtf8 (log.drop pos) = true)
    (hclosed : Terminated LF (log.drop pos)) (hpos : pos ≤ log.length) :
    refreshTail parse log m pos =
      some (insertAll m (entries LF parse (log.drop pos)), log.length) := by
  unfold refreshTail
  split
  · next h =>
    have he : pos = log.length := by omega
    subst he
    simp [entries, pieces]
  · simp only [htext, if_true, hclosed.complete_eq, List.length_drop]
    congr 2
    omega

/-- Everything a refresh that succeeds can do: there was nothing to read, or the complete lines are
read. -/
theorem refreshTail_cases {ν : Type} {parse : Bytes → Option (Hash × ν)} {log : Bytes}
    {m : HashMap Hash ν} {pos : Nat} {r : HashMap Hash ν × Nat}
    (h : refreshTail parse log m pos = some r) : (log.length ≤ pos ∧ r = (m, pos)) ∨
      r = (insertAll m (entries LF parse (complete LF (log.drop pos))),
        pos + (complete LF (log.drop pos)).length) := by
  unfold refreshTail at h
  dsimp only at h
  split at h
  · next hle =>
    cases h
    exact .inl ⟨hle, rfl⟩
  · split at h
    · cases h
      exact .inr rfl
    · cases h

/-- A refresh right after one that succeeded finds nothing. -/
theorem refreshTail_twice {ν : Type} {parse : Bytes → Option (Hash × ν)} {log : Bytes}
    {m : HashMap Hash ν} {pos : Nat} {r : HashMap Hash ν × Nat}
    (h : refreshTail parse log m pos = some r) :
    (refreshTail parse log r.1 r.2).getD r = r := by
  rcases refreshTail_cases h with ⟨hle, rfl⟩ | rfl
  · rw [refreshTail, if_pos hle]
    rfl
  · have htorn : log.drop (pos + (complete LF (log.drop pos)).length) = torn LF (log.drop pos) := by
      have hsplit : complete LF (log.drop pos) ++ torn LF (log.drop pos) = log.drop pos :=
        complete_append_torn _
      rw [← List.drop_drop]
      nth_rewrite 2 [← hsplit]
      exact List.drop_left
    have hnone : complete LF (torn LF (log.drop pos)) = [] :=
      complete_append_of_notMem (s := []) (notMem_torn _)
    rw [refreshTail]
    dsimp only
    rw [htorn, hnone]
    split
    · rfl
    · split
      · simp [entries, pieces]
      · rfl

/-! ## Opening -/

/-- A directory whose sidecars are closed texts is opened as they are. -/
theorem Store.open_eq {d : Disk} (hindexText : validUtf8 d.index = true)
    (hindexClosed : Terminated LF d.index) (hrefsText : validUtf8 d.refsTsv = true)
    (hrefsClosed : Terminated LF d.refsTsv) : Store.open d =
      (.ok ⟨insertAll ∅ (refEntries d.refsTsv), insertAll ∅ (packEntries d.index), d.index.length,
        d.refsTsv.length, (PackState.open d).1⟩, (PackState.open d).2) := by
  have hindex : truncatePartialLine d.index = some d.index := by
    rw [truncatePartialLine, if_pos hindexText, hindexClosed.complete_eq]
  have hrefs : truncatePartialLine d.refsTsv = some d.refsTsv := by
    rw [truncatePartialLine, if_pos hrefsText, hrefsClosed.complete_eq]
  rw [Store.open]
  simp only [hindex, hrefs, loadLog, if_pos hindexText, if_pos hrefsText]

/-! ## What a call can do -/

section Calls

/-- `has` is right away right about what the handle holds, and else refreshes and looks once
more. -/
theorem Store.has_cases (d : Disk) (s : Store) (h : Hash) :
    (s.holds d h = true ∧ s.has d h = (true, s)) ∨
      (s.holds d h = false ∧
        s.has d h =
          (decide (h ∈ (s.tryRefreshPackIndex d).packIndex), s.tryRefreshPackIndex d)) := by
  unfold Store.has
  cases hh : s.holds d h with
  | true => exact .inl ⟨rfl, by simp⟩
  | false => exact .inr ⟨rfl, by simp⟩

/-- What `has` reports, in the maps before and after it reads on. -/
theorem Store.has_eq (d : Disk) (s : Store) (h : Hash) : (s.has d h).1 =
    (s.holds d h || decide (h ∈ (s.tryRefreshPackIndex d).packIndex)) := by
  rcases Store.has_cases d s h with ⟨hh, he⟩ | ⟨hh, he⟩
  · rw [he, hh, Bool.true_or]
  · rw [he, hh, Bool.false_or]

/-- Reading on in the index adds to its map at most, and a second time nothing. -/
theorem Store.tryRefreshPackIndex_spec (d : Disk) (s : Store) :
    (s.tryRefreshPackIndex d).refs = s.refs ∧
      (∀ h ∈ s.packIndex, h ∈ (s.tryRefreshPackIndex d).packIndex) ∧
      (s.tryRefreshPackIndex d).tryRefreshPackIndex d = s.tryRefreshPackIndex d := by
  unfold Store.tryRefreshPackIndex Store.refreshPackIndex
  rcases hr : refreshTail packEntry d.index s.packIndex s.packIndexPos with _ | r
  · refine ⟨rfl, fun _ h => h, ?_⟩
    rw [Option.map_none, Option.getD_none, hr]
    rfl
  · have hagain := refreshTail_twice hr
    rw [Option.map_some, Option.getD_some]
    dsimp only
    refine ⟨rfl, fun h hh => ?_, ?_⟩
    · rcases refreshTail_cases hr with ⟨-, rfl⟩ | rfl
      · exact hh
      · exact mem_insertAll.mpr (.inl hh)
    · rcases hr' : refreshTail packEntry d.index r.1 r.2 with _ | r'
      · rfl
      · rw [hr', Option.getD_some] at hagain
        rw [hagain]
        rfl

/-- Asking for one chunk changes no other answer. -/
theorem Store.has_has (d : Disk) (s : Store) (g h : Hash) :
    ((s.has d g).2.has d h).1 = (s.has d h).1 := by
  rcases Store.has_cases d s g with ⟨-, he⟩ | ⟨-, he⟩
  · rw [he]
  · obtain ⟨hrefs, hmore, htwice⟩ := Store.tryRefreshPackIndex_spec d s
    rw [he, Store.has_eq, Store.has_eq, htwice]
    unfold Store.holds
    rw [hrefs, Bool.eq_iff_iff]
    simp only [Bool.or_eq_true, decide_eq_true_eq]
    constructor
    · rintro (((hp | ho) | hr) | hp)
      · exact .inr hp
      · exact .inl (.inl (.inr ho))
      · exact .inl (.inr hr)
      · exact .inr hp
    · rintro (((hp | ho) | hr) | hp)
      · exact .inr (hmore h hp)
      · exact .inl (.inl (.inr ho))
      · exact .inl (.inr hr)
      · exact .inr hp

variable [Blake3]

/-- The handle as `put` looks at it for the second time, holding the pack lock. -/
def Store.recheck (d : Disk) (s : Store) : Store := (s.tryRefreshPackIndex d).tryRefreshRefs d

/-- Everything `put` can do: the chunk is found at once, or after a refresh of the index, or under
the pack lock; or it is not, and then the write fails, or it succeeds and a line is added. -/
theorem Store.put_cases (d : Disk) (s : Store) (bytes : Bytes) :
    let h := Hash.of bytes
    (s.holds d h = true ∧ s.put d bytes = (.ok (h, false), d, s)) ∨
    (s.holds d h = false ∧ h ∈ (s.tryRefreshPackIndex d).packIndex ∧
      s.put d bytes = (.ok (h, false), d, s.tryRefreshPackIndex d)) ∨
    (s.holds d h = false ∧ h ∉ (s.tryRefreshPackIndex d).packIndex ∧
      let s1 := (s.tryRefreshPackIndex d).recheck d
      (s1.holds d h = true ∧ s.put d bytes = (.ok (h, false), d, s1)) ∨
      (s1.holds d h = false ∧
        ((∃ p d', s1.packState.write d bytes = (none, p, d') ∧
            s.put d bytes = (.error .io, d', { s1 with packState := p })) ∨
          ∃ id offset p d', s1.packState.write d bytes = (some (id, offset), p, d') ∧
            let loc : PackLoc := ⟨id, offset, UInt32.ofNat bytes.length⟩
            s.put d bytes = (.ok (h, true), { d' with index := d'.index ++ packIndexLine h loc },
              { s1 with
                packState := p
                packIndex := s1.packIndex.insert h loc
                packIndexPos := s1.packIndexPos + (packIndexLine h loc).length })))) := by
  intro h
  rcases Store.has_cases d s h with ⟨hh, he⟩ | ⟨hh, he⟩
  · exact .inl ⟨hh, by rw [Store.put, he]⟩
  · right
    by_cases hm : h ∈ (s.tryRefreshPackIndex d).packIndex
    · exact .inl ⟨hh, hm, by rw [Store.put, he, decide_eq_true hm]⟩
    · refine .inr ⟨hh, hm, ?_⟩
      rw [Store.put, he, decide_eq_false hm]
      dsimp only
      cases h1 : ((s.tryRefreshPackIndex d).recheck d).holds d h with
      | true =>
        left
        refine ⟨rfl, ?_⟩
        exact if_pos h1
      | false =>
        right
        refine ⟨rfl, ?_⟩
        rw [show (((s.tryRefreshPackIndex d).tryRefreshPackIndex d).tryRefreshRefs d) =
          (s.tryRefreshPackIndex d).recheck d from rfl,
        if_neg (by rw [h1]; exact Bool.false_ne_true)]
        rcases hw : ((s.tryRefreshPackIndex d).recheck d).packState.write d bytes
          with ⟨_ | ⟨id, offset⟩, p, d'⟩
        · exact .inl ⟨p, d', rfl, rfl⟩
        · exact .inr ⟨id, offset, p, d', rfl, rfl⟩

/-- A `put` adds bytes to a pack file and text to the index at most. -/
theorem Store.put_disk (d : Disk) (s : Store) (bytes : Bytes) : ∃ packs tail,
    (s.put d bytes).2.1 = { d with packs := packs, index := d.index ++ tail } ∧
      PacksGrow d.packs packs := by
  have hsame : ∃ packs tail, d = { d with packs := packs, index := d.index ++ tail } ∧
      PacksGrow d.packs packs := ⟨d.packs, [], by simp, .refl _⟩
  rcases Store.put_cases d s bytes with ⟨-, he⟩ | ⟨-, -, he⟩ | ⟨-, -, ⟨-, he⟩ | ⟨-, h⟩⟩
  · rwa [he]
  · rwa [he]
  · rwa [he]
  · rcases h with ⟨p, d', hw, he⟩ | ⟨id, offset, p, d', hw, he⟩
    · obtain ⟨packs, rfl, hgrow⟩ := PackState.write_disk hw
      exact ⟨packs, [], by rw [he]; simp, hgrow⟩
    · obtain ⟨packs, rfl, hgrow⟩ := PackState.write_disk hw
      exact ⟨packs, _, by rw [he], hgrow⟩

end Calls

end Np2ptp
