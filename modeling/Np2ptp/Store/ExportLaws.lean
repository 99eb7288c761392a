import Np2ptp.Core.ManifestLaws
import Np2ptp.Store.Export

/-!
# The streaming export against the in-memory one

Both exporters read the chunks of the file table in the same order. `Store.readFiles` is that
reading alone, and each exporter is the reading with its own checks around it: the streaming one
with the root and the paths (`exportTreeToDir_ok_iff`), the in-memory one with the manifest's
structure, the proofs of the chunks it meets and the size of each file (`exportTree_ok_iff`). The
two agree exactly where these checks agree (`exportTreeToDir_refines_iff`).
-/

namespace Np2ptp

open Lib

section

variable [Blake3]

/-! ## What the reads return -/

theorem checkRead_ok {h : Hash} {o : Option Bytes} {r : Option Bytes}
    (e : checkRead h o = .ok r) : ∃ bytes, o = some bytes ∧ r = some bytes ∧ Hash.of bytes = h := by
  cases o with
  | none => cases e
  | some bytes =>
    by_cases hh : Hash.of bytes = h
    · rw [checkRead, if_neg (not_not.mpr hh)] at e
      cases e
      exact ⟨bytes, rfl, rfl, hh⟩
    · rw [checkRead, if_pos hh] at e
      cases e

/-- A read of the pack index that succeeds returns bytes of the hash. -/
theorem Store.getFromPackIndex_ok {d : Disk} {s : Store} {h : Hash} {bytes : Bytes}
    (e : s.getFromPackIndex d h = .ok (some bytes)) : Hash.of bytes = h := by
  unfold Store.getFromPackIndex at e
  split at e
  · cases e
  · obtain ⟨_, -, hr, hh⟩ := checkRead_ok e
    cases hr
    exact hh

theorem Disk.getObject_ok {d : Disk} {h : Hash} {bytes : Bytes}
    (e : d.getObject h = .ok (some bytes)) : Hash.of bytes = h := by
  unfold Disk.getObject at e
  split at e
  · cases e
  · obtain ⟨_, -, hr, hh⟩ := checkRead_ok e
    cases hr
    exact hh

theorem Store.getReference_ok {d : Disk} {s : Store} {h : Hash} {bytes : Bytes}
    (e : s.getReference d h = .ok (some bytes)) : Hash.of bytes = h := by
  unfold Store.getReference at e
  split at e
  · cases e
  · split at e
    · cases e
    · cases e
    · obtain ⟨_, -, hr, hh⟩ := checkRead_ok e
      cases hr
      exact hh

/-- What `get` returns hashes to what was asked for, whatever is on the disk. -/
theorem Store.hash_of_get {d : Disk} {s s' : Store} {h : Hash} {bytes : Bytes}
    (e : s.get d h = (.ok (some bytes), s')) : Hash.of bytes = h := by
  unfold Store.get at e
  split at e
  · cases e
  · next hp => cases e; exact Store.getFromPackIndex_ok hp
  · split at e
    · cases e
    · next ho => cases e; exact Disk.getObject_ok ho
    · split at e
      · cases e
      · next hr => cases e; exact Store.getReference_ok hr
      · split at e
        · cases e
        · exact Store.getFromPackIndex_ok (Prod.mk.inj e).1

/-! ## Reading the file table -/

/-- The bytes of `count` listed chunks from the index `ci` on, `none` where one is not listed or
not read. -/
def Store.readRange (d : Disk) (m : Manifest) : Nat → Nat → Store → Option Bytes × Store
  | 0, _, s => (some [], s)
  | count + 1, ci, s =>
    match m.chunks[ci]? with
    | none => (none, s)
    | some cref =>
      match s.get d cref.hash with
      | (.ok (some bytes), s) =>
        match Store.readRange d m count (ci + 1) s with
        | (some rest, s) => (some (bytes ++ rest), s)
        | (none, s) => (none, s)
      | (_, s) => (none, s)

/-- The bytes of every file of a file table. -/
def Store.readFiles (d : Disk) (m : Manifest) :
    List FileEntry → Store → Option (List (Text × Bytes)) × Store
  | [], s => (some [], s)
  | entry :: files, s =>
    match Store.readRange d m entry.chunkCount.toNat entry.chunkStart.toNat s with
    | (none, s) => (none, s)
    | (some bytes, s) =>
      match Store.readFiles d m files s with
      | (some rest, s) => (some ((entry.path, bytes) :: rest), s)
      | (none, s) => (none, s)

/-- Bytes that `get` returned for a listed chunk pass the cheap check. -/
theorem Manifest.chunkHashOk_of_get {d : Disk} {s s' : Store} {m : Manifest} {ci : Nat}
    {cref : ChunkRef} {bytes : Bytes} (hc : m.chunks[ci]? = some cref)
    (e : s.get d cref.hash = (.ok (some bytes), s')) : m.chunkHashOk ci bytes = true := by
  rw [Manifest.chunkHashOk, hc]
  exact beq_iff_eq.mpr (Store.hash_of_get e)

/-- Reading one chunk more: it is listed, it is read, and the rest is read after it. -/
theorem Store.readRange_succ_some {d : Disk} {m : Manifest} {count ci : Nat} {s s'' : Store}
    {bytes : Bytes} (h : Store.readRange d m (count + 1) ci s = (some bytes, s'')) :
    ∃ cref b rest s', m.chunks[ci]? = some cref ∧ s.get d cref.hash = (.ok (some b), s') ∧
      Store.readRange d m count (ci + 1) s' = (some rest, s'') ∧ bytes = b ++ rest := by
  rw [Store.readRange] at h
  split at h
  · cases h
  · next cref hc =>
    split at h
    · next b s' hg =>
      split at h
      · next rest s2 hr =>
        cases h
        exact ⟨cref, b, rest, s', hc, hg, hr, rfl⟩
      · cases h
    · cases h

/-- A range that is not read lacks a chunk, or its first chunk is read and the rest is not. -/
theorem Store.readRange_succ_none {d : Disk} {m : Manifest} {count ci : Nat} {s : Store}
    (h : (Store.readRange d m (count + 1) ci s).1 = none) :
    m.chunks[ci]? = none ∨
      (∃ cref, m.chunks[ci]? = some cref ∧ ∀ b s', s.get d cref.hash ≠ (.ok (some b), s')) ∨
      ∃ cref b s', m.chunks[ci]? = some cref ∧ s.get d cref.hash = (.ok (some b), s') ∧
        (Store.readRange d m count (ci + 1) s').1 = none := by
  rw [Store.readRange] at h
  split at h
  · next hc => exact .inl hc
  · next cref hc =>
    split at h
    · next b s' hg =>
      split at h
      · cases h
      · next hr => exact .inr (.inr ⟨cref, b, s', hc, hg, by rw [hr]⟩)
    · next r s' hne hg =>
      exact .inr (.inl ⟨cref, hc, fun b t e => hne b (Prod.mk.inj (hg.symm.trans e)).1⟩)

/-- The streaming range writes what the reading returns. -/
theorem Store.exportRange_of_read {d : Disk} {m : Manifest} : ∀ {count ci : Nat} {w bytes : Bytes}
    {s s' : Store}, Store.readRange d m count ci s = (some bytes, s') →
    Store.exportRange d m count ci w s = (.ok, w ++ bytes, s')
  | 0, _, _, _, _, _, h => by
    cases h
    simp [Store.exportRange]
  | count + 1, ci, w, _, _, _, h => by
    obtain ⟨cref, b, rest, s', hc, hg, hr, rfl⟩ := Store.readRange_succ_some h
    have hok := Manifest.chunkHashOk_of_get hc hg
    rw [Store.exportRange]
    simp only [hc, hg, hok, if_true]
    rw [Store.exportRange_of_read hr, List.append_assoc]

/-- The streaming range fails with an error where the reading fails. -/
theorem Store.exportRange_of_not_read {d : Disk} {m : Manifest} : ∀ {count ci : Nat} {w : Bytes}
    {s : Store}, (Store.readRange d m count ci s).1 = none →
    ∃ e, (Store.exportRange d m count ci w s).1 = .err e
  | 0, _, _, _, h => by cases h
  | count + 1, ci, w, s, h => by
    rw [Store.exportRange]
    rcases Store.readRange_succ_none h with hc | ⟨cref, hc, hg⟩ | ⟨cref, b, s', hc, hg, hr⟩
    · simp only [hc]
      exact ⟨_, rfl⟩
    · simp only [hc]
      rcases he : s.get d cref.hash with ⟨e | _ | b, s'⟩
      · exact ⟨_, rfl⟩
      · exact ⟨_, rfl⟩
      · exact absurd he (hg b s')
    · simp only [hc, hg, Manifest.chunkHashOk_of_get hc hg, if_true]
      exact Store.exportRange_of_not_read hr

/-- The streaming range that succeeds wrote what the reading returns. -/
theorem Store.read_of_exportRange {d : Disk} {m : Manifest} {count ci : Nat} {w : Bytes}
    {s s' : Store} (h : Store.exportRange d m count ci [] s = (.ok, w, s')) :
    Store.readRange d m count ci s = (some w, s') := by
  rcases hread : Store.readRange d m count ci s with ⟨_ | bytes, t⟩
  · obtain ⟨e, he⟩ := Store.exportRange_of_not_read (w := []) (by rw [hread])
    rw [h] at he
    cases he
  · rw [Store.exportRange_of_read hread] at h
    cases h
    rfl

/-- The in-memory range collects what the reading returns, where the listed chunks make up the
root. -/
theorem Store.collectRange_of_read {d : Disk} {m : Manifest} : ∀ {count ci : Nat}
    {w bytes : Bytes} {s s' : Store}, (count ≠ 0 → m.rootIsConsistent = true) →
    Store.readRange d m count ci s = (some bytes, s') →
    m.collectRange (Store.fetch d) count ci w (s, none) = (.ok (w ++ bytes), (s', none))
  | 0, _, _, _, _, _, _, h => by
    cases h
    simp [Manifest.collectRange]
  | count + 1, ci, w, _, _, _, hroot, h => by
    obtain ⟨cref, b, rest, s', hc, hg, hr, rfl⟩ := Store.readRange_succ_some h
    have hok : m.verifyChunk ci b = true := by
      rw [Manifest.verifyChunk_eq, hroot (by omega), Manifest.chunkHashOk_of_get hc hg]
      rfl
    rw [Manifest.collectRange]
    simp only [hc, Store.fetch, hg, hok, if_true]
    rw [Store.collectRange_of_read (fun _ => hroot (by omega)) hr, List.append_assoc]

/-- The in-memory range that succeeds has read every chunk, and a range that is not empty has
checked the root. -/
theorem Store.read_of_collectRange {d : Disk} {m : Manifest} : ∀ {count ci : Nat} {w out : Bytes}
    {s : Store} {t : Store × Option StoreError},
    m.collectRange (Store.fetch d) count ci w (s, none) = (.ok out, t) →
    ∃ bytes, Store.readRange d m count ci s = (some bytes, t.1) ∧ out = w ++ bytes ∧
      t.2 = none ∧ (count ≠ 0 → m.rootIsConsistent = true)
  | 0, _, w, _, _, _, h => by
    cases h
    exact ⟨[], rfl, by simp, rfl, fun hn => absurd rfl hn⟩
  | count + 1, ci, w, out, s, t, h => by
    rw [Manifest.collectRange] at h
    split at h
    · cases h
    · next cref hc =>
      simp only [Store.fetch] at h
      rcases hg : s.get d cref.hash with ⟨e | _ | b, s'⟩
      · simp only [hg] at h
        cases h
      · simp only [hg] at h
        cases h
      · simp only [hg, Manifest.verifyChunk_eq, Manifest.chunkHashOk_of_get hc hg,
          Bool.true_and] at h
        split at h
        · next hroot =>
          obtain ⟨rest, hr, rfl, ht, -⟩ := Store.read_of_collectRange h
          refine ⟨b ++ rest, ?_, by rw [List.append_assoc], ht, fun _ => hroot⟩
          rw [Store.readRange]
          simp only [hc, hg, hr]
        · cases h

/-! ## Whole file tables -/

/-- The path passes the check that every writer makes. -/
def FileEntry.PathOk (entry : FileEntry) : Prop :=
  validateRelativePath entry.path.bytes = .ok ()

/-- Each file has the size that its entry says. -/
def SizesMatch (files : List FileEntry) (out : List (Text × Bytes)) : Prop :=
  out.map (fun f => f.2.length) = files.map fun e => e.size.toNat

theorem Store.readFiles_cons_some {d : Disk} {m : Manifest} {entry : FileEntry}
    {files : List FileEntry} {s s'' : Store} {out : List (Text × Bytes)} :
    Store.readFiles d m (entry :: files) s = (some out, s'') ↔ ∃ bytes rest s',
      Store.readRange d m entry.chunkCount.toNat entry.chunkStart.toNat s = (some bytes, s') ∧
      Store.readFiles d m files s' = (some rest, s'') ∧ out = (entry.path, bytes) :: rest := by
  rw [Store.readFiles]
  constructor
  · intro h
    split at h
    · cases h
    · next bytes s' hr =>
      split at h
      · next rest _ hf =>
        cases h
        exact ⟨bytes, rest, s', hr, hf, rfl⟩
      · cases h
  · rintro ⟨bytes, rest, s', hr, hf, rfl⟩
    simp only [hr, hf]

theorem Store.readFiles_cons_isSome {d : Disk} {m : Manifest} {entry : FileEntry}
    {files : List FileEntry} {s : Store} :
    (Store.readFiles d m (entry :: files) s).1.isSome ↔ ∃ bytes s',
      Store.readRange d m entry.chunkCount.toNat entry.chunkStart.toNat s = (some bytes, s') ∧
      (Store.readFiles d m files s').1.isSome := by
  constructor
  · intro h
    obtain ⟨out, hout⟩ := Option.isSome_iff_exists.mp h
    obtain ⟨bytes, rest, s', hr, hf, -⟩ := Store.readFiles_cons_some.mp (Prod.ext hout rfl)
    exact ⟨bytes, s', hr, by rw [hf]; rfl⟩
  · rintro ⟨bytes, s', hr, h⟩
    obtain ⟨rest, hrest⟩ := Option.isSome_iff_exists.mp h
    rw [Store.readFiles_cons_some.mpr ⟨bytes, rest, s', hr, Prod.ext hrest rfl, rfl⟩]
    rfl

/-- What is read is listed under the paths of the table. -/
theorem Store.readFiles_paths {d : Disk} {m : Manifest} {files : List FileEntry}
    {out : List (Text × Bytes)} {s s' : Store} (h : Store.readFiles d m files s = (some out, s')) :
    out.map Prod.fst = files.map FileEntry.path := by
  induction files generalizing out s with
  | nil =>
    cases h
    rfl
  | cons entry files ih =>
    obtain ⟨bytes, rest, s1, -, hf, rfl⟩ := Store.readFiles_cons_some.mp h
    rw [List.map_cons, List.map_cons, ih hf]

/-- A streaming export of some files succeeds where every path is valid, no range overflows and
every chunk is read, and writes what was read. -/
theorem Store.exportFiles_ok_iff {d : Disk} {m : Manifest} : ∀ {files : List FileEntry}
    {acc out : List (Text × Bytes)} {s s' : Store},
    Store.exportFiles d m files acc s = (.ok, out, s') ↔
      (∀ entry ∈ files, entry.PathOk ∧ entry.Fits) ∧
      ∃ w, Store.readFiles d m files s = (some w, s') ∧ out = acc ++ w
  | [], acc, out, s, s' => by
    constructor
    · rintro h
      cases h
      exact ⟨by simp, [], rfl, by simp⟩
    · rintro ⟨-, w, hw, rfl⟩
      cases hw
      simp [Store.exportFiles]
  | entry :: files, acc, out, s, s' => by
    rw [Store.exportFiles]
    constructor
    · intro h
      split at h
      · cases h
      · next hpath =>
        split at h
        · cases h
        · next hfits =>
          split at h
          · next w s1 hr =>
            obtain ⟨hall, v, hv, rfl⟩ := Store.exportFiles_ok_iff.mp h
            have hb := Store.read_of_exportRange hr
            refine ⟨?_, (entry.path, w) :: v,
              Store.readFiles_cons_some.mpr ⟨w, v, s1, hb, hv, rfl⟩, by simp⟩
            intro e he
            rcases List.mem_cons.mp he with rfl | he
            · exact ⟨hpath, Nat.lt_of_not_le hfits⟩
            · exact hall e he
          · next hne hr =>
            cases h
            exact absurd rfl hne
    · rintro ⟨hall, w, hw, rfl⟩
      obtain ⟨bytes, rest, s1, hr, hf, rfl⟩ := Store.readFiles_cons_some.mp hw
      obtain ⟨hpath, hfits⟩ := hall entry List.mem_cons_self
      have hpath' : validateRelativePath entry.path.bytes = .ok () := hpath
      simp only [hpath', if_neg (Nat.not_le.mpr hfits), Store.exportRange_of_read hr,
        List.nil_append]
      exact Store.exportFiles_ok_iff.mpr
        ⟨fun e he => hall e (List.mem_cons_of_mem _ he), rest, hf, by simp⟩

/-- The first file whose range overflows is the first of all, or comes after it. -/
theorem Store.exists_overflow_cons {d : Disk} {m : Manifest} {entry : FileEntry}
    {files : List FileEntry} {s : Store} (hfits : entry.Fits) :
    (∃ before e after, entry :: files = before ++ e :: after ∧ ¬ e.Fits ∧
        (Store.readFiles d m before s).1.isSome) ↔
      ∃ bytes s', Store.readRange d m entry.chunkCount.toNat entry.chunkStart.toNat s =
          (some bytes, s') ∧
        ∃ before e after, files = before ++ e :: after ∧ ¬ e.Fits ∧
          (Store.readFiles d m before s').1.isSome := by
  constructor
  · rintro ⟨before, e, after, hsplit, hno, hread⟩
    cases before with
    | nil =>
      cases hsplit
      exact absurd hfits hno
    | cons e0 before =>
      cases hsplit
      obtain ⟨bytes, s', hr, hread⟩ := Store.readFiles_cons_isSome.mp hread
      exact ⟨bytes, s', hr, before, e, after, rfl, hno, hread⟩
  · rintro ⟨bytes, s', hr, before, e, after, rfl, hno, hread⟩
    exact ⟨entry :: before, e, after, rfl, hno,
      Store.readFiles_cons_isSome.mpr ⟨bytes, s', hr, hread⟩⟩

/-- A streaming export of valid paths overflows at the first file whose range does, if it reads
everything before it. -/
theorem Store.exportFiles_overflow_iff {d : Disk} {m : Manifest} : ∀ {files : List FileEntry}
    {acc : List (Text × Bytes)} {s : Store}, (∀ entry ∈ files, entry.PathOk) →
    ((Store.exportFiles d m files acc s).1 = .overflow ↔
      ∃ before entry after, files = before ++ entry :: after ∧ ¬ entry.Fits ∧
        (Store.readFiles d m before s).1.isSome)
  | [], acc, s, _ => by
    simp [Store.exportFiles]
  | entry :: files, acc, s, hpaths => by
    have hpath : validateRelativePath entry.path.bytes = .ok () := hpaths entry List.mem_cons_self
    have hrest : ∀ e ∈ files, e.PathOk := fun e he => hpaths e (List.mem_cons_of_mem _ he)
    rw [Store.exportFiles]
    simp only [hpath]
    by_cases hfits : 2 ^ 64 ≤ entry.chunkStart.toNat + entry.chunkCount.toNat
    · rw [if_pos hfits]
      exact ⟨fun _ => ⟨[], entry, files, rfl, Nat.not_lt.mpr hfits, rfl⟩, fun _ => rfl⟩
    · rw [if_neg hfits, Store.exists_overflow_cons (Nat.lt_of_not_le hfits)]
      rcases hr : Store.readRange d m entry.chunkCount.toNat entry.chunkStart.toNat s
        with ⟨_ | bytes, s1⟩
      · obtain ⟨e, he⟩ := Store.exportRange_of_not_read (w := []) (by rw [hr])
        rcases hx : Store.exportRange d m entry.chunkCount.toNat entry.chunkStart.toNat [] s
          with ⟨o, w, t⟩
        rw [hx] at he
        cases he
        constructor
        · intro h
          cases h
        · rintro ⟨bytes, s', h, -⟩
          cases h
      · rw [Store.exportRange_of_read hr]
        simp only [List.nil_append]
        rw [Store.exportFiles_overflow_iff hrest]
        constructor
        · intro h
          exact ⟨bytes, s1, rfl, h⟩
        · rintro ⟨bytes', s', h, hlater⟩
          cases h
          exact hlater

/-- A collection of some files succeeds where every chunk is read, the root is right unless the
files have no chunks, and every file has its size. -/
theorem Store.collectFiles_ok_iff {d : Disk} {m : Manifest} : ∀ {files : List FileEntry}
    {acc out : List (Text × Bytes)} {s s' : Store} {e : Option StoreError},
    m.collectFiles (Store.fetch d) files acc (s, none) = (.ok out, (s', e)) ↔
      e = none ∧ (∀ entry ∈ files, entry.chunkCount.toNat ≠ 0 → m.rootIsConsistent = true) ∧
      ∃ w, Store.readFiles d m files s = (some w, s') ∧ SizesMatch files w ∧ out = acc ++ w
  | [], acc, out, s, s', e => by
    constructor
    · rintro h
      cases h
      exact ⟨rfl, by simp, [], rfl, rfl, by simp⟩
    · rintro ⟨rfl, -, w, hw, -, rfl⟩
      cases hw
      simp [Manifest.collectFiles]
  | entry :: files, acc, out, s, s', e => by
    rw [Manifest.collectFiles]
    constructor
    · intro h
      split at h
      · cases h
      · next fileBytes t hr =>
        split at h
        · cases h
        · next hsize =>
          obtain ⟨bytes, hread, rfl, ht, hroot⟩ := Store.read_of_collectRange hr
          obtain ⟨s1, e1⟩ := t
          cases ht
          obtain ⟨rfl, hroots, w, hw, hs, rfl⟩ := Store.collectFiles_ok_iff.mp h
          refine ⟨rfl, ?_, (entry.path, fileBytes) :: w,
            Store.readFiles_cons_some.mpr ⟨fileBytes, w, s1, hread, hw, rfl⟩, ?_, by simp⟩
          · intro e' he
            rcases List.mem_cons.mp he with rfl | he
            · exact hroot
            · exact hroots e' he
          · have hsize' : fileBytes.length = entry.size.toNat := not_not.mp hsize
            simp only [SizesMatch, List.map_cons, hsize'] at hs ⊢
            rw [hs]
    · rintro ⟨rfl, hroots, w, hw, hs, rfl⟩
      obtain ⟨bytes, rest, s1, hr, hf, rfl⟩ := Store.readFiles_cons_some.mp hw
      simp only [SizesMatch, List.map_cons, List.cons.injEq] at hs
      rw [Store.collectRange_of_read (hroots entry List.mem_cons_self) hr]
      simp only [List.nil_append, hs.1, ne_eq, not_true, if_false]
      exact Store.collectFiles_ok_iff.mpr
        ⟨rfl, fun e he => hroots e (List.mem_cons_of_mem _ he), rest, hf, hs.2, by simp⟩

/-! ## The two exports -/

theorem Store.readFiles_prefix_isSome {d : Disk} {m : Manifest} : ∀ {before : List FileEntry}
    (after : List FileEntry) {s : Store}, (Store.readFiles d m (before ++ after) s).1.isSome →
    (Store.readFiles d m before s).1.isSome
  | [], _, _, _ => rfl
  | entry :: before, after, s, h => by
    rw [List.cons_append] at h
    obtain ⟨bytes, s1, hr, hrest⟩ := Store.readFiles_cons_isSome.mp h
    exact Store.readFiles_cons_isSome.mpr
      ⟨bytes, s1, hr, Store.readFiles_prefix_isSome after hrest⟩

/-- Files without chunks are read without touching the store. -/
theorem Store.readFiles_of_empty {d : Disk} {m : Manifest} {s : Store} :
    ∀ {files : List FileEntry},
    (∀ entry ∈ files, entry.chunkCount.toNat = 0 ∧ entry.size.toNat = 0) →
    ∃ out, Store.readFiles d m files s = (some out, s) ∧ SizesMatch files out
  | [], _ => ⟨[], rfl, rfl⟩
  | entry :: files, h => by
    obtain ⟨hcount, hsize⟩ := h entry List.mem_cons_self
    obtain ⟨out, hout, hs⟩ := Store.readFiles_of_empty (d := d) (m := m) (s := s)
      fun e he => h e (List.mem_cons_of_mem _ he)
    have hr : Store.readRange d m entry.chunkCount.toNat entry.chunkStart.toNat s =
        (some [], s) := by
      rw [hcount]
      rfl
    refine ⟨(entry.path, []) :: out, Store.readFiles_cons_some.mpr ⟨[], out, s, hr, hout, rfl⟩, ?_⟩
    simp only [SizesMatch, List.map_cons, List.length_nil, hsize] at hs ⊢
    rw [hs]

/-- A manifest without chunks that validates has empty files only. -/
theorem Store.readFiles_of_no_chunks {d : Disk} {m : Manifest} {s : Store}
    (hv : m.validate = .ok ()) (hnil : m.chunks = []) :
    ∃ out, Store.readFiles d m m.files s = (some out, s) ∧ SizesMatch m.files out := by
  have ht := Manifest.tiled_of_validate hv
  refine Store.readFiles_of_empty fun e he => ?_
  have hbound := ht.bound e he
  rw [hnil, List.length_nil] at hbound
  have h0 : e.chunkCount.toNat = 0 := by omega
  exact ⟨h0, ht.empty e he h0⟩

/-- The in-memory export of a file table succeeds where the manifest validates, every chunk is
read, every file has its size, and the root is right if there is any chunk to prove. -/
theorem Store.exportTree_ok_iff {d : Disk} {s s' : Store} {m : Manifest}
    {out : List (Text × Bytes)} : s.exportTree d m = (.ok out, s') ↔
      m.validate = .ok () ∧ Store.readFiles d m m.files s = (some out, s') ∧
      SizesMatch m.files out ∧ (m.chunks ≠ [] → m.rootIsConsistent = true) := by
  have hfinish : s.exportTree d m = (.ok out, s') ↔
      m.reconstructFiles (Store.fetch d) (s, none) = (.ok out, (s', none)) := by
    rw [Store.exportTree]
    rcases m.reconstructFiles (Store.fetch d) (s, none) with ⟨e | o, t, _ | e'⟩ <;>
      simp [finishExport]
  rw [hfinish, Manifest.reconstructFiles]
  constructor
  · intro h
    split at h
    · cases h
    · next hv =>
      obtain ⟨-, hroots, w, hw, hs, rfl⟩ := Store.collectFiles_ok_iff.mp h
      refine ⟨hv, hw, hs, fun hne => ?_⟩
      obtain ⟨e, he, hcount⟩ := (Manifest.tiled_of_validate hv).exists_chunk hne
      exact hroots e he hcount
  · rintro ⟨hv, hw, hs, hroot⟩
    rw [hv]
    refine Store.collectFiles_ok_iff.mpr ⟨rfl, fun e he hcount => hroot ?_, out, hw, hs, rfl⟩
    rintro hnil
    have hbound := (Manifest.tiled_of_validate hv).bound e he
    rw [hnil] at hbound
    simp only [List.length_nil] at hbound
    omega

/-- The streaming export of a file table succeeds where the root is right, every path is valid, no
range overflows and every chunk is read. -/
theorem Store.exportTreeToDir_ok_iff {d : Disk} {s s' : Store} {m : Manifest}
    {out : List (Text × Bytes)} : s.exportTreeToDir d m = (.ok, out, s') ↔
      m.rootIsConsistent = true ∧ (∀ entry ∈ m.files, entry.PathOk ∧ entry.Fits) ∧
      Store.readFiles d m m.files s = (some out, s') := by
  rw [Store.exportTreeToDir]
  split
  · next hroot =>
    rw [Store.exportFiles_ok_iff]
    simp [hroot]
  · next hroot => simp [hroot]

theorem Store.exportTreeToDir_overflow_iff {d : Disk} {s : Store} {m : Manifest}
    (hpaths : ∀ entry ∈ m.files, entry.PathOk) : (s.exportTreeToDir d m).1 = .overflow ↔
      m.rootIsConsistent = true ∧ ∃ before entry after, m.files = before ++ entry :: after ∧
        ¬ entry.Fits ∧ (Store.readFiles d m before s).1.isSome := by
  rw [Store.exportTreeToDir]
  split
  · next hroot => simp [hroot, Store.exportFiles_overflow_iff hpaths]
  · next hroot => simp [hroot]

/-- The streaming export refines the in-memory one: what it writes when it succeeds is what the
other returns, and where every path is valid the two succeed together and no range overflows. -/
def ExportsAgree (d : Disk) (s : Store) (m : Manifest) : Prop :=
  (∀ out s', s.exportTreeToDir d m = (.ok, out, s') → (s.exportTree d m).1 = .ok out) ∧
    ((∀ entry ∈ m.files, entry.PathOk) →
      ((s.exportTreeToDir d m).1 = .ok ↔ ∃ out, (s.exportTree d m).1 = .ok out) ∧
      (s.exportTreeToDir d m).1 ≠ .overflow)

/-- Where the checks of the two exports come to the same. -/
structure ChecksAgree (d : Disk) (s : Store) (m : Manifest) : Prop where
  /-- What the streaming export does not check: the structure and the file sizes. -/
  sizes : m.rootIsConsistent = true → (∀ entry ∈ m.files, entry.PathOk) →
    ∀ out, (Store.readFiles d m m.files s).1 = some out →
      m.validate = .ok () ∧ SizesMatch m.files out
  /-- What the in-memory export does not check where there is no chunk to prove: the root. -/
  root : (∀ entry ∈ m.files, entry.PathOk) → m.validate = .ok () → m.chunks = [] →
    m.rootIsConsistent = true
  /-- No range that the streaming export comes to overflows. -/
  fits : m.rootIsConsistent = true → (∀ entry ∈ m.files, entry.PathOk) →
    ∀ before entry after, m.files = before ++ entry :: after →
      (Store.readFiles d m before s).1.isSome → entry.Fits

/-- The streaming export refines the in-memory one exactly where their checks agree. Both read the
same chunks in the same order, so what separates them is only what each of them checks. -/
theorem exportTreeToDir_refines_iff (d : Disk) (s : Store) (m : Manifest) :
    ExportsAgree d s m ↔ ChecksAgree d s m := by
  constructor
  · rintro ⟨hsame, hboth⟩
    have hfits : m.rootIsConsistent = true → (∀ entry ∈ m.files, entry.PathOk) →
        ∀ before entry after, m.files = before ++ entry :: after →
          (Store.readFiles d m before s).1.isSome → entry.Fits := by
      intro hroot hpaths before entry after hsplit hread
      by_contra hno
      exact (hboth hpaths).2 ((Store.exportTreeToDir_overflow_iff hpaths).mpr
        ⟨hroot, before, entry, after, hsplit, hno, hread⟩)
    refine ⟨fun hroot hpaths out hout => ?_, fun hpaths hv hnil => ?_, hfits⟩
    · have hall : ∀ entry ∈ m.files, entry.Fits := fun e he => by
        obtain ⟨before, after, hsplit⟩ := List.append_of_mem he
        refine hfits hroot hpaths before e after hsplit ?_
        refine Store.readFiles_prefix_isSome (e :: after) ?_
        rw [← hsplit, hout]
        rfl
      have hok := Store.exportTreeToDir_ok_iff.mpr
        ⟨hroot, fun e he => ⟨hpaths e he, hall e he⟩, Prod.ext hout rfl⟩
      obtain ⟨hv, -, hs, -⟩ := Store.exportTree_ok_iff.mp (Prod.ext (hsame _ _ hok) rfl)
      exact ⟨hv, hs⟩
    · obtain ⟨out, hread, hs⟩ := Store.readFiles_of_no_chunks (s := s) (d := d) hv hnil
      have htree := Store.exportTree_ok_iff.mpr ⟨hv, hread, hs, fun hne => absurd hnil hne⟩
      have hok := (hboth hpaths).1.mpr ⟨out, by rw [htree]⟩
      exact (Store.exportTreeToDir_ok_iff.mp (Prod.ext hok rfl)).1
  · intro h
    refine ⟨fun out s' hok => ?_, fun hpaths => ⟨⟨fun hok => ?_, ?_⟩, fun hover => ?_⟩⟩
    · obtain ⟨hroot, hall, hread⟩ := Store.exportTreeToDir_ok_iff.mp hok
      obtain ⟨hv, hs⟩ := h.sizes hroot (fun e he => (hall e he).1) out (by rw [hread])
      rw [Store.exportTree_ok_iff.mpr ⟨hv, hread, hs, fun _ => hroot⟩]
    · obtain ⟨hroot, hall, hread⟩ := Store.exportTreeToDir_ok_iff.mp (Prod.ext hok rfl)
      obtain ⟨hv, hs⟩ := h.sizes hroot hpaths _ (by rw [hread])
      exact ⟨_, by rw [Store.exportTree_ok_iff.mpr ⟨hv, hread, hs, fun _ => hroot⟩]⟩
    · rintro ⟨out, hout⟩
      obtain ⟨hv, hread, hs, hroot⟩ := Store.exportTree_ok_iff.mp (Prod.ext hout rfl)
      have hroot' : m.rootIsConsistent = true := by
        by_cases hnil : m.chunks = []
        · exact h.root hpaths hv hnil
        · exact hroot hnil
      have hfits := (Manifest.tiled_of_validate hv).fits
      rw [Store.exportTreeToDir_ok_iff.mpr
        ⟨hroot', fun e he => ⟨hpaths e he, hfits e he⟩, hread⟩]
    · obtain ⟨hroot, before, entry, after, hsplit, hno, hread⟩ :=
        (Store.exportTreeToDir_overflow_iff hpaths).mp hover
      exact hno (h.fits hroot hpaths before entry after hsplit hread)

end

/-- A manifest of the one-byte file `a` that says the file has two bytes. -/
def overstatedManifest : Manifest where
  root := rootOfX
  totalSize := 1
  chunks := [⟨digestOfX, 0, 1⟩]
  files := [⟨⟨[97], by decide⟩, 2, 0, 1⟩]
  name := none

/-- A directory and a handle that hold the chunk `x`. -/
def diskOfX : Disk where
  index := packIndexLine digestOfX ⟨0, 0, 1⟩
  refsTsv := []
  packs := Finmap.singleton 0 [120]
  objects := ∅
  sources := ∅
  canonicalize _ := none

def storeOfX : Store where
  refs := ∅
  packIndex := Finmap.singleton digestOfX ⟨0, 0, 1⟩
  packIndexPos := 71
  refsPos := 0
  packState := ⟨0, 1⟩

/-- A file size that the chunks do not back is exported all the same. -/
theorem exportTreeToDir_overstated :
    ¬ @ExportsAgree blake3OfX diskOfX storeOfX overstatedManifest := by
  let _ := blake3OfX
  intro h
  have hstream : (storeOfX.exportTreeToDir diskOfX overstatedManifest).1 = .ok := by decide
  have hmemory : (storeOfX.exportTree diskOfX overstatedManifest).1.isOk = false := by decide
  rw [h.1 _ _ (Prod.ext hstream rfl)] at hmemory
  cases hmemory

end Np2ptp
