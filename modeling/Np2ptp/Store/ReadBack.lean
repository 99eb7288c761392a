import Np2ptp.Core.Reconstruct
import Np2ptp.Store.ExportLaws
import Np2ptp.Store.Lookup

/-!
# Exports of one chunk list under two file tables

A file table that validates goes through the chunk list in order, so an export reads the listed
chunks one after the other and cuts what it has read by the counts of the table
(`Store.readFiles_eq_some_iff`). Where the chunks are the pieces of some files and the table has the
paths and sizes of these files, the export gives the files exactly if the chunks are read and the
table gives every file as many of them as the chunker cut from it (`exportTree_files_iff`,
`exportTreeToDir_files_iff`). The table that `from_files` builds does (`exportTree_fromFiles_iff`).
-/

namespace Np2ptp

open Lib

section

variable [Blake3] {d : Disk} {s s' : Store} {m : Manifest}

/-- One chunk read by an exporter: what `get` returns, if it returns one. -/
def Store.read (d : Disk) (s : Store) (h : Hash) : Option Bytes × Store :=
  match s.get d h with
  | (.ok o, s) => (o, s)
  | (.error _, s) => (none, s)

theorem Store.read_eq_some_iff {h : Hash} {bytes : Bytes} :
    s.read d h = (some bytes, s') ↔ s.get d h = (.ok (some bytes), s') := by
  unfold Store.read
  rcases s.get d h with ⟨e | o, t⟩
  · simp
  · simp

/-- What is read of one chunk, and the handle after it. -/
theorem Store.read_fst_iff {h : Hash} {bytes : Bytes} :
    (s.read d h).1 = some bytes ↔ s.get d h = (.ok (some bytes), (s.read d h).2) := by
  rw [← Store.read_eq_some_iff]
  exact ⟨fun hr => Prod.ext hr rfl, fun hr => by rw [hr]⟩

/-! ## Reading by a file table -/

/-- A range within the chunk list is its chunks read one after the other. -/
theorem Store.readRange_eq_some_iff {count ci : Nat} {bytes : Bytes}
    (hle : ci + count ≤ m.chunks.length) :
    Store.readRange d m count ci s = (some bytes, s') ↔ ∃ ps,
      Fetched (Store.read d) s ((m.hashes.drop ci).take count) ps ∧
      s' = fetchAll (Store.read d) s ((m.hashes.drop ci).take count) ∧ bytes = ps.flatten := by
  induction count generalizing ci s bytes with
  | zero =>
    rw [List.take_zero]
    constructor
    · intro h
      cases h
      exact ⟨[], trivial, rfl, rfl⟩
    · rintro ⟨ps, hps, rfl, rfl⟩
      cases ps with
      | nil => rfl
      | cons p ps => exact absurd hps id
  | succ count ih =>
    have hlt : ci < m.chunks.length := by omega
    have hc : m.chunks[ci]? = some m.chunks[ci] := List.getElem?_eq_getElem hlt
    have hcut : (m.hashes.drop ci).take (count + 1) =
        m.chunks[ci].hash :: (m.hashes.drop (ci + 1)).take count := by
      have hlt' : ci < m.hashes.length := by rwa [Manifest.hashes, List.length_map]
      rw [List.drop_eq_getElem_cons hlt', List.take_succ_cons]
      simp only [Manifest.hashes, List.getElem_map]
    rw [hcut]
    constructor
    · intro h
      obtain ⟨cref, b, rest, t, hcref, hget, hrest, rfl⟩ := Store.readRange_succ_some h
      obtain rfl := Option.some.inj (hc.symm.trans hcref)
      have hread := Store.read_eq_some_iff.mpr hget
      obtain ⟨ps, hps, rfl, rfl⟩ := (ih (by omega)).mp hrest
      refine ⟨b :: ps, ⟨by rw [hread], by rwa [hread]⟩, ?_, rfl⟩
      rw [fetchAll, fetchAll, List.foldl_cons, hread]
    · rintro ⟨ps, hps, rfl, rfl⟩
      cases ps with
      | nil => exact absurd hps id
      | cons p ps =>
        obtain ⟨hp, hps⟩ := hps
        have hget := Store.read_fst_iff.mp hp
        have hrest := (ih (by omega)).mpr ⟨ps, hps, rfl, rfl⟩
        rw [Store.readRange]
        simp only [hc, hget, hrest]
        rfl

/-- Reading by a file table that validates is reading the chunks in order, and cutting. -/
theorem Store.readFiles_eq_some_iff {entries : List FileEntry} {cursor fileBytes : Nat}
    {r : Nat × Nat} {s : Store} {out : List (Text × Bytes)}
    (hv : validateFiles m.chunks entries cursor fileBytes = .ok r)
    (hend : r.1 = m.chunks.length) :
    Store.readFiles d m entries s = (some out, s') ↔ ∃ ps,
      Fetched (Store.read d) s (m.hashes.drop cursor) ps ∧
      s' = fetchAll (Store.read d) s (m.hashes.drop cursor) ∧ out = cutBy entries ps := by
  induction entries generalizing cursor fileBytes s out with
  | nil =>
    cases hv
    have hnil : m.hashes.drop cursor = [] := by
      refine List.drop_of_length_le ?_
      rw [Manifest.hashes, List.length_map]
      exact hend.ge
    rw [hnil]
    constructor
    · intro h
      cases h
      exact ⟨[], trivial, rfl, rfl⟩
    · rintro ⟨ps, hps, rfl, rfl⟩
      cases ps with
      | nil => rfl
      | cons p ps => exact absurd hps id
  | cons entry entries ih =>
    obtain ⟨hstart, -, hbound, -, hrest⟩ := validateFiles_cons_ok hv
    have hlength := Manifest.length_take_hashes hbound
    rw [Store.readFiles_cons_some, Manifest.hashes_drop cursor entry.chunkCount.toNat]
    constructor
    · rintro ⟨bytes, rest, t, hr, hf, rfl⟩
      rw [hstart] at hr
      obtain ⟨ps, hps, rfl, rfl⟩ := (Store.readRange_eq_some_iff hbound).mp hr
      obtain ⟨qs, hqs, rfl, rfl⟩ := (ih hrest).mp hf
      refine ⟨ps ++ qs, fetched_append.mpr ⟨ps, qs, hps, hqs, rfl⟩,
        (fetchAll_append _ _ _).symm, ?_⟩
      rw [cutBy_cons _ _ _ _ (hps.length_eq.trans hlength)]
    · rintro ⟨all, hall, rfl, rfl⟩
      obtain ⟨ps, qs, hps, hqs, rfl⟩ := fetched_append.mp hall
      refine ⟨ps.flatten, cutBy entries qs, _, ?_,
        (ih hrest).mpr ⟨qs, hqs, fetchAll_append _ _ _, rfl⟩, ?_⟩
      · rw [hstart]
        exact (Store.readRange_eq_some_iff hbound).mpr ⟨ps, hps, rfl, rfl⟩
      · rw [cutBy_cons _ _ _ _ (hps.length_eq.trans hlength)]

/-! ## Exports of the pieces of some files -/

omit [Blake3] in
/-- What a reference leads to is a part of its source file. -/
theorem Disk.stores_of_readAt {path content bytes : Bytes} {offset : UInt64} {length : UInt32}
    (hfile : d.sources.lookup path = some (.file content))
    (h : readAt content offset length = some bytes) : d.Stores bytes :=
  .inr (.inr ⟨path, content, hfile, infix_of_readAt h⟩)

/-- What `get` returns lies on the disk. -/
theorem Store.stores_of_get {h : Hash} {bytes : Bytes}
    (hget : (s.get d h).1 = .ok (some bytes)) : d.Stores bytes := by
  have hpack : ∀ {t : Store}, t.getFromPackIndex d h = .ok (some bytes) → d.Stores bytes := by
    intro t e
    unfold Store.getFromPackIndex at e
    split at e
    · cases e
    · obtain ⟨other, hr, hb, -⟩ := checkRead_ok e
      cases hb
      exact Disk.stores_of_readFromPack hr
  unfold Store.get at hget
  split at hget
  · cases hget
  · next hp => exact hpack (by rw [hp]; exact hget)
  · split at hget
    · cases hget
    · next ho =>
      cases hget
      unfold Disk.getObject at ho
      split at ho
      · cases ho
      · next old hl =>
        obtain ⟨other, hr, hb, -⟩ := checkRead_ok ho
        cases hr
        cases hb
        exact .inr (.inl ⟨h, hl⟩)
    · split at hget
      · cases hget
      · next hr =>
        cases hget
        unfold Store.getReference at hr
        split at hr
        · cases hr
        · split at hr
          · cases hr
          · cases hr
          · next content hfile =>
            obtain ⟨other, hr, hb, -⟩ := checkRead_ok hr
            cases hb
            exact Disk.stores_of_readAt hfile hr
      · split at hget
        · cases hget
        · exact hpack hget

/-- What is read for the hashes of some pieces are these pieces, or the disk holds a collision. -/
theorem Store.fetched_eq {pieces ps : List Bytes} (hnc : ∀ p ∈ pieces, d.NoCollision p)
    (h : Fetched (Store.read d) s (pieces.map Hash.of) ps) : ps = pieces := by
  induction pieces generalizing s ps with
  | nil => exact List.length_eq_zero_iff.mp h.length_eq
  | cons p pieces ih =>
    cases ps with
    | nil => exact absurd h id
    | cons q ps =>
      have hget := Store.read_fst_iff.mp h.1
      have hstored : d.Stores q := Store.stores_of_get (by rw [hget])
      rw [hnc p List.mem_cons_self q hstored (Store.hash_of_get hget),
        ih (fun r hr => hnc r (List.mem_cons_of_mem _ hr)) h.2]

variable [FastCDC] {files : List (Text × Bytes)}

/-- The manifest lists the pieces of these files under its root, and its file table, which tiles the
list, has their paths and sizes. -/
structure Manifest.Covers (m : Manifest) (files : List (Text × Bytes)) : Prop where
  validates : m.validate = .ok ()
  consistent : m.rootIsConsistent = true
  hashes : m.hashes = (treePieces files).map Hash.of
  table : m.files.map (fun e => (e.path, e.size.toNat)) = files.map fun f => (f.1, f.2.length)

/-- The file table gives every file as many chunks as the chunker cuts from it. -/
def Manifest.CountsChunks (m : Manifest) (files : List (Text × Bytes)) : Prop :=
  m.files.map (fun e => e.chunkCount.toNat) = files.map fun f => (chunk f.2).length

theorem length_chunk (data : Bytes) : (chunk data).length = (FastCDC.slice.pieces data).length := by
  have hmap := congrArg List.length (map_hash_chunk data)
  rwa [List.length_map, List.length_map] at hmap

/-- Cutting the pieces of the files by the table gives the files exactly under the right counts. -/
theorem Manifest.Covers.cutBy_iff (hm : m.Covers files) :
    cutBy m.files (treePieces files) = files ↔ m.CountsChunks files := by
  have hpaths : m.files.map FileEntry.path = files.map Prod.fst := by
    have htable := congrArg (List.map Prod.fst) hm.table
    rwa [List.map_map, List.map_map] at htable
  have hpieces : treePieces files = (files.map fun f => FastCDC.slice.pieces f.2).flatten := rfl
  have hcontents : (files.map fun f => FastCDC.slice.pieces f.2).map List.flatten =
      files.map Prod.snd := by
    rw [List.map_map]
    exact List.map_congr_left fun f _ => FastCDC.slice.flatten_pieces f.2
  have hcounts : (files.map fun f => FastCDC.slice.pieces f.2).map List.length =
      files.map fun f => (chunk f.2).length := by
    rw [List.map_map]
    exact List.map_congr_left fun f _ => (length_chunk f.2).symm
  have hcount : (m.files.map fun e => e.chunkCount.toNat).length =
      (files.map fun f => FastCDC.slice.pieces f.2).length := by
    have hlength := congrArg List.length hpaths
    rw [List.length_map, List.length_map] at hlength
    rw [List.length_map, List.length_map, hlength]
  have hsum : (m.files.map fun e => e.chunkCount.toNat).sum =
      (files.map fun f => FastCDC.slice.pieces f.2).flatten.length := by
    have hlength := congrArg List.length hm.hashes
    rw [Manifest.hashes, List.length_map, List.length_map] at hlength
    rw [(Manifest.tiled_of_validate hm.validates).total, hlength]
    rfl
  have hne : ∀ g ∈ files.map fun f => FastCDC.slice.pieces f.2, ∀ p ∈ g, p ≠ [] := by
    intro g hg p hp
    obtain ⟨f, -, rfl⟩ := List.mem_map.mp hg
    exact List.length_pos_iff.mp (FastCDC.slice.length_pos f.2 p hp)
  have hslices := map_flatten_slices_iff hne hcount hsum
  rw [hcontents, hcounts, ← hpieces] at hslices
  rw [Manifest.CountsChunks, ← hslices, cutBy, hpaths]
  have hlength : (files.map Prod.fst).length = ((slices (m.files.map fun e => e.chunkCount.toNat)
      (treePieces files)).map List.flatten).length := by
    rw [List.length_map, List.length_map, length_slices, hcount, List.length_map]
  constructor
  · intro h
    rw [← List.map_snd_zip hlength.ge, h]
  · intro h
    rw [h]
    exact (List.zip_of_prod rfl rfl).symm

/-- The reading gives the files if the chunks are read and the counts are right. -/
theorem Manifest.Covers.readFiles_iff (hm : m.Covers files)
    (hnc : ∀ p ∈ treePieces files, d.NoCollision p) :
    (∃ s', Store.readFiles d m m.files s = (some files, s')) ↔
      Fetched (Store.read d) s ((treePieces files).map Hash.of) (treePieces files) ∧
        m.CountsChunks files := by
  obtain ⟨r, hv, hend⟩ := validateFiles_of_validate hm.validates
  rw [← hm.cutBy_iff]
  constructor
  · rintro ⟨s', h⟩
    obtain ⟨ps, hps, -, hfiles⟩ := (Store.readFiles_eq_some_iff hv hend).mp h
    rw [List.drop_zero, hm.hashes] at hps
    obtain rfl := Store.fetched_eq hnc hps
    exact ⟨hps, hfiles.symm⟩
  · rintro ⟨hps, hfiles⟩
    refine ⟨_, (Store.readFiles_eq_some_iff hv hend).mpr ⟨_, ?_, rfl, hfiles.symm⟩⟩
    rwa [List.drop_zero, hm.hashes]

/-- When `export_tree` returns the files. -/
theorem Manifest.Covers.exportTree_iff (hm : m.Covers files)
    (hnc : ∀ p ∈ treePieces files, d.NoCollision p) :
    (s.exportTree d m).1 = .ok files ↔
      Fetched (Store.read d) s ((treePieces files).map Hash.of) (treePieces files) ∧
        m.CountsChunks files := by
  have hsizes : SizesMatch m.files files := by
    have htable := congrArg (List.map Prod.snd) hm.table
    rw [List.map_map, List.map_map] at htable
    exact htable.symm
  rw [← hm.readFiles_iff hnc]
  constructor
  · intro h
    obtain ⟨-, hread, -⟩ := Store.exportTree_ok_iff.mp
      (Prod.ext h rfl : s.exportTree d m = (.ok files, _))
    exact ⟨_, hread⟩
  · rintro ⟨s', hread⟩
    rw [Store.exportTree_ok_iff.mpr ⟨hm.validates, hread, hsizes, fun _ => hm.consistent⟩]

/-- When `export_tree_to_dir` writes them. -/
theorem Manifest.Covers.exportTreeToDir_iff (hm : m.Covers files)
    (hnc : ∀ p ∈ treePieces files, d.NoCollision p) :
    (∃ s', s.exportTreeToDir d m = (.ok, files, s')) ↔ (∀ entry ∈ m.files, entry.PathOk) ∧
      Fetched (Store.read d) s ((treePieces files).map Hash.of) (treePieces files) ∧
        m.CountsChunks files := by
  rw [← hm.readFiles_iff hnc]
  constructor
  · rintro ⟨s', h⟩
    obtain ⟨-, hpaths, hread⟩ := Store.exportTreeToDir_ok_iff.mp h
    exact ⟨fun entry he => (hpaths entry he).1, s', hread⟩
  · rintro ⟨hpaths, s', hread⟩
    have hfits := (Manifest.tiled_of_validate hm.validates).fits
    exact ⟨s', Store.exportTreeToDir_ok_iff.mpr
      ⟨hm.consistent, fun entry he => ⟨hpaths entry he, hfits entry he⟩, hread⟩⟩

/-! ## The manifest that was built -/

theorem map_entriesFrom (start : Nat) (hsize : (treeBytes files).length < 2 ^ 64) :
    (entriesFrom start files).map (fun e => (e.path, e.size.toNat)) =
        files.map (fun f => (f.1, f.2.length)) ∧
      (entriesFrom start files).map (fun e => e.chunkCount.toNat) =
        files.map fun f => (chunk f.2).length := by
  induction files generalizing start with
  | nil => exact ⟨rfl, rfl⟩
  | cons f files ih =>
    rw [treeBytes_cons, List.length_append] at hsize
    have hchunks := length_chunk_le f.2
    obtain ⟨htable, hcounts⟩ := ih (start + (chunk f.2).length) (by omega)
    rw [entriesFrom, List.map_cons, List.map_cons, List.map_cons, List.map_cons, htable, hcounts]
    dsimp only
    rw [toNat_u64 (by omega), toNat_u64 (by omega)]
    exact ⟨rfl, rfl⟩

/-- The manifest that `from_files` builds of some files covers them. -/
theorem Manifest.covers_fromFiles (name : Option Text) (hsize : (treeBytes files).length < 2 ^ 64) :
    (Manifest.fromFiles files name).Covers files where
  validates := Manifest.validate_fromFiles name hsize
  consistent := beq_self_eq_true _
  hashes := Manifest.hashes_fromFiles files name
  table := by
    rw [Manifest.fromFiles_eq]
    exact (map_entriesFrom 0 hsize).1

/-- Its counts are right. -/
theorem Manifest.countsChunks_fromFiles (name : Option Text)
    (hsize : (treeBytes files).length < 2 ^ 64) :
    (Manifest.fromFiles files name).CountsChunks files := by
  rw [Manifest.CountsChunks, Manifest.fromFiles_eq]
  exact (map_entriesFrom 0 hsize).2

/-- Under it the files are exported exactly if their chunks are read. -/
theorem exportTree_fromFiles_iff (name : Option Text) (hsize : (treeBytes files).length < 2 ^ 64)
    (hnc : ∀ p ∈ treePieces files, d.NoCollision p) :
    (s.exportTree d (Manifest.fromFiles files name)).1 = .ok files ↔
      Fetched (Store.read d) s ((treePieces files).map Hash.of) (treePieces files) := by
  rw [(Manifest.covers_fromFiles name hsize).exportTree_iff hnc]
  exact and_iff_left (Manifest.countsChunks_fromFiles name hsize)

end

end Np2ptp
