import Np2ptp.Core.BuiltManifest
import Np2ptp.Store.Ingest

/-!
# What an ingest stores

The slices that `ingest_tree` stores are the pieces of the files (`treeSlices_fromFiles`). A write
fails only for want of room in a pack file (`Store.put_of_room`), so a tree that fits is ingested
(`ingestTree_of_room`).
-/

namespace Np2ptp

open Lib

/-- Every pack file could take `n` more bytes. -/
def Disk.HasRoom (d : Disk) (n : Nat) : Prop :=
  ∀ id, ((d.packs.lookup id).getD []).length + n ≤ MAX_FILE

theorem PackState.rotate_content (d : Disk) (p : PackState) (id : UInt32) :
    ((p.rotate d).2.packs.lookup id).getD [] = (d.packs.lookup id).getD [] := by
  unfold PackState.rotate
  split
  · dsimp only
    by_cases he : id = p.currentId + 1
    · rw [he, Finmap.lookup_insert]
      rfl
    · rw [Finmap.lookup_insert_of_ne _ he]
  · rfl

/-- A write into a directory with room succeeds, and takes up as much room as it has bytes. -/
theorem PackState.write_of_room {d : Disk} {n : Nat} {bytes : Bytes} (h : d.HasRoom n)
    (hle : bytes.length ≤ n) (p : PackState) : ∃ loc p' d',
    p.write d bytes = (some loc, p', d') ∧ d'.HasRoom (n - bytes.length) := by
  have hcontent := PackState.rotate_content d p
  rcases hr : p.rotate d with ⟨p', d'⟩
  rw [hr] at hcontent
  have hfit : ¬MAX_FILE < ((d'.packs.lookup p'.currentId).getD []).length + bytes.length := by
    have hid := h p'.currentId
    rw [← hcontent] at hid
    dsimp only at hid
    omega
  rw [PackState.write, hr]
  dsimp only
  rw [if_neg hfit]
  refine ⟨_, _, _, rfl, fun id => ?_⟩
  have hid := h id
  rw [← hcontent] at hid
  dsimp only at hid ⊢
  by_cases he : id = p'.currentId
  · rw [← he, Finmap.lookup_insert]
    simp only [Option.getD_some, List.length_append]
    omega
  · rw [Finmap.lookup_insert_of_ne _ he]
    omega

variable [Blake3]

theorem Store.put_of_room {d : Disk} {n : Nat} {bytes : Bytes} (h : d.HasRoom n)
    (hle : bytes.length ≤ n) (s : Store) :
    (∃ r, (s.put d bytes).1 = .ok r) ∧ (s.put d bytes).2.1.HasRoom (n - bytes.length) := by
  have hless : d.HasRoom (n - bytes.length) := fun id => by
    have hid := h id
    omega
  rcases Store.put_cases d s bytes with ⟨-, he⟩ | ⟨-, -, he⟩ | ⟨-, -, ⟨-, he⟩ | ⟨-, hw⟩⟩
  · rw [he]
    exact ⟨⟨_, rfl⟩, hless⟩
  · rw [he]
    exact ⟨⟨_, rfl⟩, hless⟩
  · rw [he]
    exact ⟨⟨_, rfl⟩, hless⟩
  · obtain ⟨loc, p', d', hok, hroom⟩ :=
      PackState.write_of_room h hle ((s.tryRefreshPackIndex d).recheck d).packState
    rcases hw with ⟨p, d'', hw, -⟩ | ⟨id, offset, p, d'', hw, he⟩
    · rw [hok] at hw
      cases hw
    · rw [hok] at hw
      cases hw
      rw [he]
      exact ⟨⟨_, rfl⟩, hroom⟩

theorem Store.putAll_of_room {n : Nat} : ∀ {chunks : List Bytes} {d : Disk} (s : Store),
    d.HasRoom n → (chunks.map List.length).sum ≤ n → (s.putAll d chunks).1 = .ok ()
  | [], _, _, _, _ => rfl
  | bytes :: rest, d, s, h, hle => by
    rw [List.map_cons, List.sum_cons] at hle
    obtain ⟨⟨r, hr⟩, hroom⟩ := @Store.put_of_room _ d n bytes h (by omega) s
    have ih : ((s.put d bytes).2.2.putAll (s.put d bytes).2.1 rest).1 = .ok () :=
      Store.putAll_of_room _ hroom (by omega)
    rw [Store.putAll]
    rcases hp : s.put d bytes with ⟨e, d', s'⟩
    rw [hp] at hr ih
    cases hr
    exact ih

variable [FastCDC]

omit [Blake3] [FastCDC] in
/-- Consecutive slices as long as the pieces of some content are the pieces. -/
theorem consecutiveSlices_eq : ∀ (chunks : List ChunkRef) (ps : List Bytes) (pre : Bytes),
    (chunks.map fun c => c.length.toNat) = ps.map List.length →
    consecutiveSlices (pre ++ ps.flatten) pre.length chunks = ps
  | [], [], _, _ => rfl
  | [], p :: ps, _, h => by cases h
  | c :: chunks, [], _, h => by cases h
  | c :: chunks, p :: ps, pre, h => by
    rw [List.map_cons, List.map_cons, List.cons.injEq] at h
    obtain ⟨hp, hps⟩ := h
    have hdata : pre ++ (p :: ps).flatten = (pre ++ p) ++ ps.flatten := by
      rw [List.flatten_cons, List.append_assoc]
    have ih := consecutiveSlices_eq chunks ps (pre ++ p) hps
    have hcut : ((pre ++ (p :: ps).flatten).drop pre.length).take p.length = p := by
      rw [List.drop_left, List.flatten_cons, List.take_left]
    rw [List.length_append] at ih
    rw [consecutiveSlices, hp, hcut, hdata, ih]

theorem treeSlices_entriesFrom : ∀ (files : List (Text × Bytes)) (m : Manifest)
    (pre : List ChunkRef) (offset : Nat), m.chunks = pre ++ refsFrom offset files →
    m.files = entriesFrom pre.length files → pre.length + (treeBytes files).length < 2 ^ 64 →
    treeSlices m files = treePieces files
  | [], m, _, _, _, hf, _ => by
    rw [treeSlices, hf]
    rfl
  | f :: files, m, pre, offset, hc, hf, hlt => by
    rw [treeBytes_cons, List.length_append] at hlt
    have hcount := length_chunk_le f.2
    let own : List ChunkRef :=
      (chunk f.2).map fun s => ⟨s.hash, UInt64.ofNat offset + s.offset, s.length⟩
    have hown : own.length = (chunk f.2).length := List.length_map _
    have hchunks : m.chunks = (pre ++ own) ++ refsFrom (offset + f.2.length) files := by
      rw [hc, refsFrom, List.append_assoc]
    have hcut : (m.chunks.drop pre.length).take (chunk f.2).length = own := by
      rw [hchunks, List.append_assoc, List.drop_left, ← hown, List.take_left]
    have hlengths : own.map (fun c => c.length.toNat) =
        (FastCDC.slice.pieces f.2).map List.length := by
      rw [← map_length_chunk, List.map_map]
      rfl
    have hslices := consecutiveSlices_eq own (FastCDC.slice.pieces f.2) [] hlengths
    rw [List.nil_append, FastCDC.slice.flatten_pieces, List.length_nil] at hslices
    have ih := treeSlices_entriesFrom files
      { m with files := entriesFrom (pre ++ own).length files } (pre ++ own) (offset + f.2.length)
      hchunks rfl (by rw [List.length_append, hown]; omega)
    rw [List.length_append, hown] at ih
    rw [treeSlices, hf, entriesFrom, List.zip_cons_cons, List.flatMap_cons, treePieces_cons]
    dsimp only
    rw [toNat_u64 (by omega), toNat_u64 (by omega), hcut, hslices, ← ih]
    rfl

/-- An ingested tree is stored as its pieces. -/
theorem treeSlices_fromFiles {files : List (Text × Bytes)} (name : Option Text)
    (hsize : (treeBytes files).length < 2 ^ 64) :
    treeSlices (Manifest.fromFiles files name) files = treePieces files := by
  have hshape := Manifest.fromFiles_eq files name
  exact treeSlices_entriesFrom files _ [] 0 (by rw [hshape]; rfl) (by rw [hshape]; rfl)
    (by simpa using hsize)

/-- A tree that fits is ingested. -/
theorem ingestTree_of_room {files : List (Text × Bytes)} {d : Disk} (s : Store)
    (name : Option Text) (hsize : (treeBytes files).length < 2 ^ 64)
    (hroom : d.HasRoom (treeBytes files).length) :
    (s.ingestTree d files name).1 = .ok (Manifest.fromFiles files name) := by
  have hput : (s.putAll d (treeSlices (Manifest.fromFiles files name) files)).1 = .ok () := by
    refine Store.putAll_of_room s hroom ?_
    rw [treeSlices_fromFiles name hsize, ← List.length_flatten, flatten_treePieces]
    exact Nat.le_refl _
  rw [Store.ingestTree]
  rcases hp : s.putAll d (treeSlices (Manifest.fromFiles files name) files) with ⟨_ | _, d', s'⟩
  · rw [hp] at hput
    cases hput
  · rfl

end Np2ptp
