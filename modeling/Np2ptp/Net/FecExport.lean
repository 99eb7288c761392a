import Np2ptp.Core.MerkleBinding
import Np2ptp.Lib.Blocks
import Np2ptp.Net.FecLaws
import Np2ptp.Store.IngestExport
import Np2ptp.Store.ReadBack

/-!
# What a download from symbols returns, and what it verified

The content is split by the provider's manifest, a manifest is built of the files that come out, and
the root of that one is compared; what is returned is the provider's. Equal roots mean equal chunk
lists, and the two file tables have the same paths and sizes. The number of chunks of each file is
the provider's word: `download_fec_describes_iff` says that the files are exported by what was
returned exactly if these numbers are right.
-/

namespace Np2ptp

open Lib

/-! ## Splitting -/

/-- The loop of `split_stream` cuts files with the paths and sizes of the entries, off the bytes
from `offset` on. -/
theorem splitFiles_ok {data : Bytes} {entries : List FileEntry} {offset : Nat}
    {out files : List (Text × Bytes)} (h : splitFiles data entries offset out = .ok files) :
    ∃ cut, files = out ++ cut ∧
      entries.map (fun e => (e.path, e.size.toNat)) = cut.map (fun f => (f.1, f.2.length)) ∧
      (offset ≤ data.length → offset + (treeBytes cut).length ≤ data.length) := by
  induction entries generalizing offset out with
  | nil =>
    cases h
    exact ⟨[], by simp, rfl, fun hle => hle⟩
  | cons entry entries ih =>
    rw [splitFiles] at h
    split at h
    · cases h
    · next hstop =>
      push Not at hstop
      obtain ⟨cut, rfl, htable, hlength⟩ := ih h
      have hlen : ((data.drop offset).take entry.size.toNat).length = entry.size.toNat := by
        rw [List.length_take, List.length_drop]
        omega
      refine ⟨(entry.path, (data.drop offset).take entry.size.toNat) :: cut, by simp, ?_, ?_⟩
      · rw [List.map_cons, List.map_cons, htable, hlen]
      · intro _
        rw [treeBytes_cons, List.length_append, hlen, ← Nat.add_assoc]
        exact hlength hstop.2

/-- Files that `split_stream` cuts have the paths and sizes of the file table, and are no longer
than the declared total. -/
theorem Manifest.splitStream_ok {m : Manifest} {data : Bytes} {files : List (Text × Bytes)}
    (h : m.splitStream data = .ok files) :
    m.files.map (fun e => (e.path, e.size.toNat)) = files.map (fun f => (f.1, f.2.length)) ∧
      (treeBytes files).length < 2 ^ 64 := by
  unfold Manifest.splitStream at h
  split at h
  · cases h
  · next htotal =>
    split at h
    · cases h
    · obtain ⟨cut, rfl, htable, hlength⟩ := splitFiles_ok h
      have hle := hlength (Nat.zero_le _)
      rw [not_not.mp htotal] at hle
      exact ⟨htable, by simpa using hle.trans_lt m.totalSize.toNat_lt⟩

/-- The loop looks at the paths and sizes of the entries only. -/
theorem splitFiles_congr {data : Bytes} {entries entries' : List FileEntry} {offset : Nat}
    {out : List (Text × Bytes)} (h : entries.map (fun e => (e.path, e.size.toNat)) =
      entries'.map fun e => (e.path, e.size.toNat)) :
    splitFiles data entries offset out = splitFiles data entries' offset out := by
  induction entries generalizing entries' offset out with
  | nil => rw [List.map_eq_nil_iff.mp h.symm]
  | cons entry entries ih =>
    cases entries' with
    | nil => cases h
    | cons entry' entries' =>
      obtain ⟨hentry, hrest⟩ := List.cons.inj h
      obtain ⟨hpath, hsize⟩ := Prod.mk.inj hentry
      rw [splitFiles, splitFiles, hpath, hsize]
      split
      · rfl
      · exact ih hrest

/-- Every manifest that covers some files splits their bytes into them. -/
theorem Manifest.Covers.splitStream [Blake3] [FastCDC] {m : Manifest} {files : List (Text × Bytes)}
    (hm : m.Covers files) (hsize : m.totalSize.toNat = (treeBytes files).length) :
    m.splitStream (treeBytes files) = .ok files := by
  have hlt : (treeBytes files).length < 2 ^ 64 := hsize ▸ m.totalSize.toNat_lt
  have htable : m.files.map (fun e => (e.path, e.size.toNat)) =
      (entriesFrom 0 files).map fun e => (e.path, e.size.toNat) :=
    hm.table.trans (map_entriesFrom 0 hlt).1.symm
  have hsplit := splitFiles_entriesFrom files [] 0 [] (by simpa using hlt)
  rw [Manifest.splitStream, hm.validates, if_neg (not_not.mpr hsize.symm)]
  dsimp only
  rw [splitFiles_congr htable]
  exact hsplit

section

variable [RaptorQ]

/-- A turn leaves the manifest of the loop alone. -/
theorem FecLoop.turn_manifest {root : Hash} {l l' : FecLoop} {batch : List Bytes} :
    (l.turn root batch = .again l' → l'.manifest = l.manifest) ∧
      ∀ data, l.turn root batch = .decoded l' data → l'.manifest = l.manifest := by
  have hnext : ∀ {exhausted} {l₁ l₂ : FecLoop}, l₁.next root exhausted = .again l₂ → l₂ = l₁ := by
    intro exhausted l₁ l₂ h
    unfold FecLoop.next at h
    split at h
    · cases h
    · split at h
      · cases h
      · exact (FecTurn.again.inj h).symm
  have hnever : ∀ {exhausted} {l₁ l₂ : FecLoop} {data},
      l₁.next root exhausted ≠ .decoded l₂ data := by
    intro exhausted l₁ l₂ data h
    unfold FecLoop.next at h
    split at h
    · cases h
    · split at h
      · cases h
      · cases h
  unfold FecLoop.turn
  dsimp only
  split
  · exact ⟨nofun, nofun⟩
  · split
    · split
      · split
        · refine ⟨nofun, fun data h => ?_⟩
          obtain ⟨rfl, -⟩ := FecTurn.decoded.inj h
          rfl
        · refine ⟨fun h => ?_, fun data h => absurd h hnever⟩
          rw [hnext h]
          rfl
      · refine ⟨fun h => ?_, fun data h => absurd h hnever⟩
        rw [hnext h]
        rfl
    · refine ⟨fun h => ?_, nofun⟩
      rw [← FecTurn.again.inj h]
      rfl

variable [Blake3]

/-- The manifest of the loop, if it has begun. -/
def FecPhase.Holds (P : Manifest → Prop) : FecPhase → Prop
  | .symbols l => P l.manifest
  | _ => True

/-- The content that this answer completes. -/
def FecDownload.decodes (root : Hash) (st : FecDownload) (a : Answer) : Option (FecLoop × Bytes) :=
  match st.phase, fetchSymbols a with
  | .symbols l, .ok batch =>
    match l.turn root batch with
    | .decoded l data => some (l, data)
    | _ => none
  | _, _ => none

/-- The files that `split_stream` cuts from the content that this answer completes. -/
def FecDownload.splits (root : Hash) (st : FecDownload) (a : Answer) :
    Option (List (Text × Bytes)) :=
  (st.decodes root a).bind fun c => (c.1.manifest.splitStream c.2).toOption

variable [FastCDC] {d : Disk} {s : Store} {root : Hash} {m : Manifest}

/-- The download has not touched the store yet, and works with a manifest that was checked; or it
is over. -/
def FecDownload.Working (root : Hash) (d : Disk) (s : Store) (st : FecDownload) : Prop :=
  st.result = none →
    st.disk = d ∧ st.store = s ∧ st.phase.Holds (Manifest.Vetted root)

omit [RaptorQ] [FastCDC] in
theorem FecDownload.working_begin : FecDownload.Working root d s (.begin d s) :=
  fun _ => ⟨rfl, rfl, trivial⟩

/-- An answer leaves the download working on the directory and the handle that it has. -/
theorem FecDownload.step_working (st : FecDownload) (a : Answer) (st' : FecDownload)
    (h : st.Working root d s) (hstep : st.step root a = some st') : st'.Working root d s := by
  unfold FecDownload.step at hstep
  split at hstep
  · next hp =>
    obtain ⟨hdisk, hstore, -⟩ := h (by rw [FecDownload.result, hp])
    split at hstep
    · cases hstep
      exact fun hr => by cases hr
    · next m hm =>
      split at hstep
      · cases hstep
        exact fun hr => by cases hr
      · cases hstep
        exact fun _ => ⟨hdisk, hstore, vetted_of_getManifest hm⟩
  · next l hp =>
    obtain ⟨hdisk, hstore, hvetted⟩ := h (by rw [FecDownload.result, hp])
    rw [hp] at hvetted
    split at hstep
    · cases hstep
      exact fun hr => by cases hr
    · split at hstep
      · next l' hturn =>
        cases hstep
        refine fun _ => ⟨hdisk, hstore, ?_⟩
        show l'.manifest.Vetted root
        rwa [FecLoop.turn_manifest.1 hturn]
      · next l' data hturn =>
        cases hstep
        unfold FecDownload.finish
        split
        · exact fun hr => by cases hr
        · split
          · exact fun hr => by cases hr
          · split
            · exact fun hr => by cases hr
            · exact fun hr => by cases hr
      · cases hstep
        exact fun hr => by cases hr
  · cases hstep

omit [RaptorQ] in
/-- An end that is a good one: the content is split, the files have the root, and are stored. -/
theorem FecDownload.finish_cases {st st' : FecDownload} {l : FecLoop} {data : Bytes}
    (h : st.finish root l data = st') (hok : st'.result = some (.ok m)) :
    l.manifest = m ∧ ∃ files built, m.splitStream data = .ok files ∧
      (Manifest.fromFiles files m.name).root = root ∧
      st.store.ingestTree st.disk files m.name = (.ok built, st'.disk, st'.store) := by
  unfold FecDownload.finish at h
  split at h
  · subst h
    cases hok
  · next files hsplit =>
    split at h
    · subst h
      cases hok
    · next hroot =>
      split at h
      · subst h
        cases hok
      · next built d' s' hingest =>
        subst h
        obtain rfl : l.manifest = m := Except.ok.inj (Option.some.inj hok)
        exact ⟨rfl, files, built, hsplit, not_not.mp hroot, hingest⟩

/-- The answer that ends it well completes the content. -/
theorem FecDownload.step_ok {st st' : FecDownload} {a : Answer} (h : st.Working root d s)
    (hstep : st.step root a = some st') (hok : st'.result = some (.ok m)) :
    m.Vetted root ∧ ∃ data files built, m.splitStream data = .ok files ∧
      st.splits root a = some files ∧ (Manifest.fromFiles files m.name).root = root ∧
      s.ingestTree d files m.name = (.ok built, st'.disk, st'.store) := by
  unfold FecDownload.step at hstep
  split at hstep
  · split at hstep
    · cases hstep
      cases hok
    · split at hstep
      · cases hstep
        cases hok
      · cases hstep
        cases hok
  · next l hp =>
    obtain ⟨hdisk, hstore, hvetted⟩ := h (by rw [FecDownload.result, hp])
    rw [hp] at hvetted
    split at hstep
    · cases hstep
      cases hok
    · next batch hbatch =>
      split at hstep
      · cases hstep
        cases hok
      · next l' data hturn =>
        have hdecodes : st.decodes root a = some (l', data) := by
          simp only [FecDownload.decodes, hp, hbatch, hturn]
        obtain ⟨rfl, files, built, hsplit, hroot, hingest⟩ :=
          FecDownload.finish_cases (Option.some.inj hstep) hok
        have hl : l'.manifest = l.manifest := FecLoop.turn_manifest.2 data hturn
        rw [hdisk, hstore] at hingest
        refine ⟨hl ▸ hvetted, data, files, built, hsplit, ?_, hroot, hingest⟩
        rw [FecDownload.splits, hdecodes, Option.bind_some, hsplit]
        rfl
      · cases hstep
        cases hok
  · cases hstep

/-- What an export gives: `export_tree` returns these files, and `export_tree_to_dir` writes
them. -/
def Manifest.Describes (d : Disk) (s : Store) (m : Manifest) (files : List (Text × Bytes)) : Prop :=
  (s.exportTree d m).1 = .ok files ∧ ∃ s', s.exportTreeToDir d m = (.ok, files, s')

omit [RaptorQ] in
/-- Two manifests over the pieces of some files: the one that was built exports them if the pieces
are read, and the other one if its counts are right besides. -/
theorem Manifest.Covers.describes_iff {files : List (Text × Bytes)} (hm : m.Covers files)
    (hsize : (treeBytes files).length < 2 ^ 64) (hnc : ∀ p ∈ treePieces files, d.NoCollision p) :
    m.Describes d s files ↔ m.CountsChunks files ∧ (∀ entry ∈ m.files, entry.PathOk) ∧
      (s.exportTree d (Manifest.fromFiles files m.name)).1 = .ok files := by
  rw [Manifest.Describes, hm.exportTree_iff hnc, hm.exportTreeToDir_iff hnc,
    exportTree_fromFiles_iff m.name hsize hnc]
  constructor
  · rintro ⟨⟨hread, hcounts⟩, hpaths, -⟩
    exact ⟨hcounts, hpaths, hread⟩
  · rintro ⟨hcounts, hpaths, hread⟩
    exact ⟨⟨hread, hcounts⟩, hpaths, hread, hcounts⟩

/-- The manifest that is returned describes the files that were verified if and only if its file
table gives each of them as many chunks as the chunker cuts from it, every path may be written, and
the store gives the files back under the manifest that was built of them. The last is so where the
references of the store are live. -/
theorem download_fec_describes_iff {answers : List Answer} {st : FecDownload}
    (hrun : runs (FecDownload.step root) (.begin d s) answers = some st)
    (hok : st.result = some (.ok m)) :
    ∃ before a st₀ files, answers = before ++ [a] ∧
      runs (FecDownload.step root) (.begin d s) before = some st₀ ∧
      st₀.splits root a = some files ∧ (Manifest.fromFiles files m.name).root = root ∧
      (¬Collision Hash.of (rootStrings m.hashes) (rootStrings ((treePieces files).map Hash.of)) →
        (∀ p ∈ treePieces files, st.disk.NoCollision p) →
        (d.Steady → s.Sound d → s.Noted d →
          (st.store.exportTree st.disk (Manifest.fromFiles files m.name)).1 = .ok files) ∧
        (m.Describes st.disk st.store files ↔
          m.CountsChunks files ∧ (∀ entry ∈ m.files, entry.PathOk) ∧
            (st.store.exportTree st.disk (Manifest.fromFiles files m.name)).1 = .ok files)) := by
  rcases List.eq_nil_or_concat answers with rfl | ⟨before, a, rfl⟩
  · cases hrun
    cases hok
  obtain ⟨st₀, hbefore, hlast⟩ := runs_append.mp (List.concat_eq_append ▸ hrun)
  obtain ⟨_, hstep, hnil⟩ := runs_cons.mp hlast
  cases hnil
  have hworking : st₀.Working root d s :=
    runs_invariant' FecDownload.step_working FecDownload.working_begin hbefore
  obtain ⟨hvetted, data, files, built, hsplit, hsplits, hroot, hingest⟩ :=
    FecDownload.step_ok hworking hstep hok
  obtain ⟨htable, hsize⟩ := Manifest.splitStream_ok hsplit
  refine ⟨before, a, st₀, files, List.concat_eq_append, hbefore, hsplits, hroot, ?_⟩
  intro hbinds hnc
  constructor
  · intro hsteady hsound hnoted
    have hlive : LiveSteps (d, s) (s.ingestTree d files m.name).2 := ingestTree_isSteps.live
    have hafter := hlive.retains hsteady hsound hnoted
    obtain ⟨-, hhas⟩ := ingestTree_has (m := built) hsteady hsound hnoted hsize (by rw [hingest])
    rw [hingest] at hafter hhas
    exact exportTree_of_has m.name hafter.disk hafter.sound hafter.noted hsize hhas hnc
  · obtain ⟨hmroot, hconsistent, hvalidates⟩ := hvetted
    have hroots : merkleRoot m.hashes = merkleRoot ((treePieces files).map Hash.of) := by
      rw [← Manifest.hashes_fromFiles files m.name, ← Manifest.root_fromFiles, hroot]
      exact (beq_iff_eq.mp hconsistent).trans hmroot
    have hhashes := (merkle_root_binds hroots).resolve_right hbinds
    exact Manifest.Covers.describes_iff ⟨hvalidates, hconsistent, hhashes, htable⟩ hsize hnc

end

/-! ## Two files of zeros

The file `a` is one zero longer than a chunk may be, and the file `b` is one zero: `a` is cut into
two chunks and `b` is one. -/

/-- A chunk of the maximum length. -/
def zeroChunk : Bytes := List.replicate MAX_CHUNK 0

/-- The digest of that chunk. -/
def digestOfZeros : Hash where
  bytes :=
    [0x86, 0xbb, 0x2b, 0x52, 0x1a, 0x10, 0x61, 0x2d, 0x5a, 0x1d, 0x38, 0x20, 0x4f, 0xac, 0x4f,
     0xa6, 0x32, 0x46, 0x6d, 0x18, 0x66, 0x14, 0x4d, 0x8a, 0x6a, 0x7e, 0x3a, 0xfc, 0x05, 0x0c,
     0xe7, 0xae]
  length_eq := rfl

/-- The digest of one zero. -/
def digestOfZero : Hash where
  bytes :=
    [0x2d, 0x3a, 0xde, 0xdf, 0xf1, 0x1b, 0x61, 0xf1, 0x4c, 0x88, 0x6e, 0x35, 0xaf, 0xa0, 0x36,
     0x73, 0x6d, 0xcd, 0x87, 0xa7, 0x4d, 0x27, 0xb5, 0xc1, 0x51, 0x02, 0x25, 0xd0, 0xf5, 0x92,
     0xe2, 0x13]
  length_eq := rfl

/-- The leaf over the chunk. -/
def leafOfZeros : Hash where
  bytes :=
    [0x7f, 0x78, 0x70, 0x0e, 0xa9, 0x7e, 0xac, 0x13, 0x9f, 0x47, 0x49, 0x08, 0x64, 0xfc, 0x72,
     0xf0, 0x4c, 0x15, 0xf2, 0x62, 0x6a, 0xcf, 0xb5, 0xbf, 0x6c, 0xbc, 0xe8, 0x4d, 0x96, 0x95,
     0x26, 0xf0]
  length_eq := rfl

/-- The leaf over one zero. -/
def leafOfZero : Hash where
  bytes :=
    [0x06, 0xc7, 0x35, 0xe4, 0x2b, 0x9a, 0x52, 0x1d, 0xf7, 0xe4, 0x90, 0x4a, 0x4f, 0x68, 0x5c,
     0x1e, 0x84, 0x77, 0x7b, 0xd9, 0xcf, 0x27, 0x55, 0xc4, 0xfa, 0x97, 0x5b, 0x0f, 0xda, 0x38,
     0x70, 0x54]
  length_eq := rfl

/-- The node over the two. -/
def nodeOfZeros : Hash where
  bytes :=
    [0xad, 0x1b, 0x7e, 0x8f, 0x56, 0xc2, 0xff, 0xd3, 0x8d, 0xe9, 0x9f, 0x6f, 0x97, 0x85, 0xd0,
     0x8b, 0xa3, 0xbc, 0x57, 0xc2, 0x95, 0xee, 0x56, 0xf9, 0xa9, 0x61, 0x84, 0xd4, 0x1b, 0xe1,
     0x07, 0x9e]
  length_eq := rfl

/-- The root over the chunk and twice one zero. -/
def rootOfZeros : Hash where
  bytes :=
    [0xb9, 0x1f, 0x1f, 0x5d, 0x41, 0xcb, 0xd9, 0x21, 0x29, 0x66, 0x09, 0x6e, 0x02, 0xd8, 0x09,
     0xbf, 0x2a, 0x37, 0x9a, 0x57, 0x25, 0x6d, 0xdc, 0x5a, 0xc6, 0x63, 0xe7, 0x4d, 0xc4, 0xe3,
     0x19, 0xf7]
  length_eq := rfl

/-- BLAKE3 on these strings. -/
abbrev blake3OfZeros : Blake3 :=
  .ofTable [([0], digestOfZero), (LEAF_TAG :: digestOfZeros.bytes, leafOfZeros),
    (LEAF_TAG :: digestOfZero.bytes, leafOfZero),
    (NODE_TAG :: (leafOfZeros.bytes ++ leafOfZero.bytes), nodeOfZeros),
    (NODE_TAG :: (nodeOfZeros.bytes ++ leafOfZero.bytes), rootOfZeros),
    (zeroChunk, digestOfZeros)]

/-- A cutter that cuts at the maximum length, as `fastcdc` cuts zeros. -/
def maxCutter : Cutter where
  pieces := blocks MAX_CHUNK
  flatten_pieces := flatten_blocks (by decide)
  length_pos _ p hp := (length_of_mem_blocks_le p hp).1
  length_le _ p hp := (length_of_mem_blocks_le p hp).2

/-- The crate as it is on zeros. -/
abbrev maxFastCDC : FastCDC := ⟨maxCutter, maxCutter⟩

/-- The two files. -/
def zeroFiles : List (Text × Bytes) := [(pathA, List.replicate (MAX_CHUNK + 1) 0), (pathB, [0])]

/-- A manifest of them with the counts of their chunks the wrong way round. -/
def shiftedManifest : Manifest where
  root := rootOfZeros
  totalSize := 262146
  chunks := [⟨digestOfZeros, 0, 262145⟩, ⟨digestOfZero, 262145, 1⟩, ⟨digestOfZero, 262146, 0⟩]
  files := [⟨pathA, 262145, 0, 1⟩, ⟨pathB, 1, 1, 2⟩]
  name := none

/-- The source symbols of the two files. -/
def zeroSymbols : List Bytes :=
  (List.range 219).map fun i => [0, 0, 0, UInt8.ofNat i] ++ List.replicate DEFAULT_SYMBOL_SIZE 0

theorem hash_zeroChunk : @Hash.of blake3OfZeros zeroChunk = digestOfZeros := by
  have hother : ∀ k : Bytes, k.length < MAX_CHUNK → (zeroChunk == k) = false := by
    intro k hk
    rw [beq_eq_false_iff_ne]
    rintro rfl
    rw [zeroChunk, List.length_replicate] at hk
    exact absurd hk (Nat.lt_irrefl _)
  -- the lookup is rewritten, for evaluating it would compare the chunk with itself
  rw [Hash.of_ofTable, List.lookup_cons, hother _ (by decide), List.lookup_cons,
    hother _ (by decide),
    List.lookup_cons, hother _ (by decide), List.lookup_cons, hother _ (by decide),
    List.lookup_cons, hother _ (by decide), List.lookup_cons, beq_self_eq_true]
  rfl

theorem treePieces_zeroFiles :
    @treePieces maxFastCDC zeroFiles = [zeroChunk, [0], [0]] := by
  let _ := maxFastCDC
  have hcut : ∀ data, FastCDC.slice.pieces data = blocks MAX_CHUNK data := fun _ => rfl
  have hlength : zeroChunk.length = MAX_CHUNK := List.length_replicate
  have hsplit : List.replicate (MAX_CHUNK + 1) (0 : UInt8) = zeroChunk ++ [0] := by
    rw [zeroChunk, List.replicate_succ']
  have hone : blocks MAX_CHUNK [(0 : UInt8)] = [[0]] :=
    blocks_of_length_le (by decide) (List.cons_ne_nil _ _) (by decide)
  rw [zeroFiles, treePieces_cons, treePieces_cons, hcut, hcut, hsplit,
    blocks_append (by decide) hlength, hone]
  rfl

theorem treeBytes_zeroFiles : treeBytes zeroFiles = List.replicate 262146 0 := by
  show List.replicate (MAX_CHUNK + 1) (0 : UInt8) ++ ([0] ++ []) = _
  rw [List.append_nil, ← List.replicate_succ']
  rfl

theorem length_zeroSymbols : zeroSymbols.length = 219 := by
  rw [zeroSymbols, List.length_map, List.length_range]

theorem length_of_mem_zeroSymbols {p : Bytes} (hp : p ∈ zeroSymbols) :
    p.length = 4 + DEFAULT_SYMBOL_SIZE := by
  obtain ⟨i, -, rfl⟩ := List.mem_map.mp hp
  rw [List.length_append, List.length_replicate]
  rfl

theorem sum_zeroSymbols : (zeroSymbols.map List.length).sum = 263676 := by
  have hall : ∀ n ∈ zeroSymbols.map List.length, n = 1204 := by
    intro n hn
    obtain ⟨p, hp, rfl⟩ := List.mem_map.mp hn
    exact length_of_mem_zeroSymbols hp
  rw [List.eq_replicate_of_mem hall, List.sum_replicate, List.length_map, length_zeroSymbols]
  rfl

/-- The source symbols decode to the zeros. -/
theorem decode_zeroSymbols :
    let _ := sourceSymbolCode
    Fec.decode (Fec.configFor 262146 DEFAULT_SYMBOL_SIZE) 262146 zeroSymbols =
      some (treeBytes zeroFiles) := by
  have hcontents : zeroSymbols.map (List.drop 4) =
      List.replicate 219 (List.replicate DEFAULT_SYMBOL_SIZE 0) := by
    have hall : ∀ q ∈ zeroSymbols.map (List.drop 4), q = List.replicate DEFAULT_SYMBOL_SIZE 0 := by
      intro q hq
      obtain ⟨p, hp, rfl⟩ := List.mem_map.mp hq
      obtain ⟨i, -, rfl⟩ := List.mem_map.mp hp
      rfl
    rw [List.eq_replicate_of_mem hall, List.length_map, length_zeroSymbols]
  have hblock : ∀ p ∈ zeroSymbols, (p.headD 0).toNat < 1 := by
    intro p hp
    obtain ⟨i, -, rfl⟩ := List.mem_map.mp hp
    exact Nat.one_pos
  have hne : zeroSymbols ≠ [] := fun h => by
    have hlength := length_zeroSymbols
    rw [h] at hlength
    cases hlength
  intro _
  rw [decode_sourceSymbols (by decide) (by decide) hne (length_zeroSymbols.trans (by decide))
    (fun _ => length_of_mem_zeroSymbols) hblock, hcontents, List.flatten_replicate_replicate,
    List.take_replicate, treeBytes_zeroFiles]
  rfl

/-- They are a batch that completes the content. -/
theorem turn_zeroSymbols (root : Hash) {m : Manifest} (hm : m.totalSize = 262146) :
    let _ := sourceSymbolCode
    ∃ l, (FecLoop.begin m).turn root zeroSymbols = .decoded l (treeBytes zeroFiles) ∧
      l.manifest = m := by
  let _ := sourceSymbolCode
  have hsize : m.totalSize.toNat = 262146 := by
    rw [hm]
    rfl
  have hfetched : satAdd 0 (zeroSymbols.map List.length).sum = 263676 := by
    rw [sum_zeroSymbols]
    rfl
  have hempty : zeroSymbols.isEmpty = false := by
    rw [List.isEmpty_eq_false_iff_exists_mem]
    exact ⟨_, List.mem_map_of_mem (List.mem_range.mpr (by decide : 0 < 219))⟩
  have hneed : max (divCeil 262146 DEFAULT_SYMBOL_SIZE) 1 = 219 := by decide
  intro _
  refine ⟨{ (FecLoop.begin m).take zeroSymbols with
    lastAttemptLen := ([] ++ zeroSymbols).length, attempts := 0 + 1 }, ?_, rfl⟩
  rw [FecLoop.turn, hempty]
  simp only [FecLoop.take, FecLoop.begin, hsize, hfetched, hneed]
  rw [if_neg (by decide), if_pos (.inl (by rw [List.nil_append, length_zeroSymbols])),
    if_pos (.inl (by rw [List.nil_append, length_zeroSymbols]; decide)), List.nil_append,
    decode_zeroSymbols]

/-- The hashes of the pieces of the two files. -/
theorem hashes_zeroFiles :
    let _ := blake3OfZeros
    let _ := maxFastCDC
    (treePieces zeroFiles).map Hash.of = [digestOfZeros, digestOfZero, digestOfZero] := by
  let _ := blake3OfZeros
  have hzero : Hash.of [0] = digestOfZero := rfl
  have hzeros : Hash.of zeroChunk = digestOfZeros := hash_zeroChunk
  intro _ _
  rw [treePieces_zeroFiles]
  simp only [List.map_cons, List.map_nil, hzero, hzeros]

theorem root_zeroFiles (name : Option Text) :
    let _ := blake3OfZeros
    let _ := maxFastCDC
    (Manifest.fromFiles zeroFiles name).root = rootOfZeros := by
  let _ := blake3OfZeros
  let _ := maxFastCDC
  have hhashes := hashes_zeroFiles
  intro _ _
  rw [Manifest.root_fromFiles, Manifest.hashes_fromFiles, hhashes]
  decide +kernel

/-- No other string has the digest of a piece of the two files. -/
theorem noCollision_zeroFiles (d : Disk) :
    let _ := blake3OfZeros
    let _ := maxFastCDC
    ∀ p ∈ treePieces zeroFiles, d.NoCollision p := by
  let _ := blake3OfZeros
  have hzero : ∀ other, Hash.of other = digestOfZero → other = [0] := fun other h =>
    Blake3.eq_of_ofTable (by decide) List.mem_cons_self (by decide) h
  have hzeros : ∀ other, Hash.of other = digestOfZeros → other = zeroChunk := fun other h =>
    Blake3.eq_of_ofTable (by decide) (by simp) (by decide) h
  have hdigest : Hash.of zeroChunk = digestOfZeros := hash_zeroChunk
  intro _ _ p hp other _ hh
  rw [treePieces_zeroFiles] at hp
  simp only [List.mem_cons, List.not_mem_nil, or_false, or_self] at hp
  rcases hp with rfl | rfl
  · exact hzeros other (hh.trans hdigest)
  · exact hzero other hh

/-- Neither do the strings of their root collide. -/
theorem not_collision_zeroFiles :
    let _ := blake3OfZeros
    let hashes := [digestOfZeros, digestOfZero, digestOfZero]
    ¬Collision Hash.of (rootStrings hashes) (rootStrings hashes) := by
  let _ := blake3OfZeros
  have hinj : ∀ x ∈ rootStrings [digestOfZeros, digestOfZero, digestOfZero],
      ∀ y ∈ rootStrings [digestOfZeros, digestOfZero, digestOfZero],
        Hash.of x = Hash.of y → x = y := by decide +kernel
  rintro _ _ ⟨x, hx, y, hy, hne, hh⟩
  exact hne (hinj x hx y hy hh)

/-- Whoever has a manifest that covers the two files, and sends the source symbols, is believed. -/
theorem runs_zeros {m : Manifest} (hm : m.Representable) (hroot : m.root = rootOfZeros)
    (hcovers : @Manifest.Covers blake3OfZeros maxFastCDC m zeroFiles)
    (htotal : m.totalSize = 262146) :
    let _ := blake3OfZeros
    let _ := maxFastCDC
    let _ := sourceSymbolCode
    ∃ st₀ st, runs (FecDownload.step rootOfZeros) (.begin (Disk.fresh ∅ ∅ some) Store.fresh)
        [.ok (.manifest (some m.toNptp))] = some st₀ ∧
      st₀.splits rootOfZeros (.ok (.symbols zeroSymbols)) = some zeroFiles ∧
      st₀.step rootOfZeros (.ok (.symbols zeroSymbols)) = some st ∧
      st.result = some (.ok m) := by
  let _ := blake3OfZeros
  let _ := maxFastCDC
  let _ := sourceSymbolCode
  have hparse := Manifest.fromNptp_toNptp hm []
  rw [List.append_nil] at hparse
  have hget := getManifest_of_vetted hparse ⟨hroot, hcovers.consistent, hcovers.validates⟩
  have hlength : (treeBytes zeroFiles).length = 262146 := by
    rw [treeBytes_zeroFiles, List.length_replicate]
  have hsplit := hcovers.splitStream (by rw [htotal, hlength]; rfl)
  have hlimit : ¬MAX_FEC_TRANSFER_SIZE < m.totalSize.toNat := by
    rw [htotal]
    decide
  obtain ⟨l, hturn, hl⟩ := turn_zeroSymbols rootOfZeros htotal
  have hfits : (treeBytes zeroFiles).length ≤ MAX_FILE := by
    rw [hlength]
    decide
  have hingest := ingestTree_of_room Store.fresh m.name (hfits.trans_lt (by decide))
    (hasRoom_fresh _ hfits)
  have hbuilt := root_zeroFiles m.name
  let begun : FecDownload := ⟨Disk.fresh ∅ ∅ some, Store.fresh, .symbols (.begin m)⟩
  have hfirst : (FecDownload.begin (Disk.fresh ∅ ∅ some) Store.fresh).step rootOfZeros
      (.ok (.manifest (some m.toNptp))) = some begun := by
    simp only [FecDownload.step, FecDownload.begin, hget, if_neg hlimit]
    rfl
  have hsecond : begun.step rootOfZeros (.ok (.symbols zeroSymbols)) =
      some (begun.finish rootOfZeros l (treeBytes zeroFiles)) := by
    simp only [FecDownload.step, begun, fetchSymbols, hturn]
  have hdecodes : begun.decodes rootOfZeros (.ok (.symbols zeroSymbols)) =
      some (l, treeBytes zeroFiles) := by
    simp only [FecDownload.decodes, begun, fetchSymbols, hturn]
  have hsplits : begun.splits rootOfZeros (.ok (.symbols zeroSymbols)) = some zeroFiles := by
    rw [FecDownload.splits, hdecodes, Option.bind_some, hl, hsplit]
    rfl
  refine ⟨begun, begun.finish rootOfZeros l (treeBytes zeroFiles),
    runs_cons.mpr ⟨_, hfirst, rfl⟩, hsplits, hsecond, ?_⟩
  rw [FecDownload.finish, hl, hsplit]
  dsimp only
  rw [if_neg (not_not.mpr hbuilt)]
  rcases hi : begun.store.ingestTree begun.disk zeroFiles m.name with ⟨e | built, d', s'⟩
  · have hfailed := (congrArg Prod.fst hi).symm.trans hingest
    cases hfailed
  · rfl

/-- The manifest with the wrong counts covers the two files, as far as its checks go. -/
theorem covers_shiftedManifest :
    let _ := blake3OfZeros
    let _ := maxFastCDC
    shiftedManifest.Covers zeroFiles := by
  let _ := blake3OfZeros
  have hconsistent : shiftedManifest.rootIsConsistent = true := by decide +kernel
  have hvalidates : shiftedManifest.validate = .ok () := by decide
  have hlength : (List.replicate (MAX_CHUNK + 1) (0 : UInt8)).length = 262145 :=
    List.length_replicate
  have hhashes := hashes_zeroFiles
  intro _ _
  refine ⟨hvalidates, hconsistent, hhashes.symm, ?_⟩
  rw [zeroFiles, List.map_cons, List.map_cons, List.map_nil, hlength]
  rfl

/-- Its counts are wrong: the longer file has two chunks. -/
theorem not_countsChunks_shiftedManifest :
    let _ := blake3OfZeros
    let _ := maxFastCDC
    ¬shiftedManifest.CountsChunks zeroFiles := by
  let _ := blake3OfZeros
  let _ := maxFastCDC
  have hcut : ∀ data, FastCDC.slice.pieces data = blocks MAX_CHUNK data := fun _ => rfl
  have hpieces : (FastCDC.slice.pieces (List.replicate (MAX_CHUNK + 1) 0)).length = 2 := by
    rw [hcut, length_blocks, List.length_replicate]
    decide
  intro _ _ h
  rw [Manifest.CountsChunks, zeroFiles, List.map_cons, length_chunk, hpieces] at h
  exact absurd (List.cons.inj h).1 (by decide)

/-- The files are verified and not described: the download of the two files from a provider that
gives the longer one a chunk too few returns its manifest, and neither export gives the files. -/
theorem download_fec_returns_wrong_counts :
    let _ := blake3OfZeros
    let _ := maxFastCDC
    let _ := sourceSymbolCode
    ∃ st₀ st, runs (FecDownload.step rootOfZeros) (.begin (Disk.fresh ∅ ∅ some) Store.fresh)
        [.ok (.manifest (some shiftedManifest.toNptp))] = some st₀ ∧
      st₀.splits rootOfZeros (.ok (.symbols zeroSymbols)) = some zeroFiles ∧
      (Manifest.fromFiles zeroFiles none).root = rootOfZeros ∧
      st₀.step rootOfZeros (.ok (.symbols zeroSymbols)) = some st ∧
      st.result = some (.ok shiftedManifest) ∧
      ¬Collision Hash.of (rootStrings shiftedManifest.hashes)
        (rootStrings ((treePieces zeroFiles).map Hash.of)) ∧
      (∀ p ∈ treePieces zeroFiles, st.disk.NoCollision p) ∧
      (st.store.exportTree st.disk shiftedManifest).1 ≠ .ok zeroFiles ∧
      ¬∃ s', st.store.exportTreeToDir st.disk shiftedManifest = (.ok, zeroFiles, s') := by
  let _ := blake3OfZeros
  let _ := maxFastCDC
  let _ := sourceSymbolCode
  have hrep : shiftedManifest.Representable :=
    ⟨by decide, by decide, by decide, nofun⟩
  obtain ⟨st₀, st, hfirst, hsplits, hsecond, hok⟩ :=
    runs_zeros hrep rfl covers_shiftedManifest rfl
  have hnc := noCollision_zeroFiles st.disk
  have hcovers := covers_shiftedManifest
  have hcounts := not_countsChunks_shiftedManifest
  have hbinds : ¬Collision Hash.of (rootStrings shiftedManifest.hashes)
      (rootStrings ((treePieces zeroFiles).map Hash.of)) := by
    rw [hashes_zeroFiles]
    exact not_collision_zeroFiles
  refine ⟨st₀, st, hfirst, hsplits, root_zeroFiles none, hsecond, hok, hbinds, hnc, ?_, ?_⟩
  · intro hexport
    exact hcounts ((hcovers.exportTree_iff hnc).mp hexport).2
  · intro hexport
    exact hcounts ((hcovers.exportTreeToDir_iff hnc).mp hexport).2.2

/-- The manifest that is built of the two files. -/
theorem zeroManifest_spec :
    let _ := blake3OfZeros
    let _ := maxFastCDC
    let m := Manifest.fromFiles zeroFiles none
    m.Representable ∧ m.root = rootOfZeros ∧ m.Covers zeroFiles ∧ m.totalSize = 262146 ∧
      ∀ entry ∈ m.files, entry.PathOk := by
  let _ := blake3OfZeros
  let _ := maxFastCDC
  have hlength : (treeBytes zeroFiles).length = 262146 := by
    rw [treeBytes_zeroFiles, List.length_replicate]
  have hfiles : ∀ entry ∈ entriesFrom 0 zeroFiles, entry.path = pathA ∨ entry.path = pathB := by
    intro entry he
    rcases List.mem_cons.mp he with rfl | he
    · exact .inl rfl
    · rcases List.mem_cons.mp he with rfl | he
      · exact .inr rfl
      · exact absurd he List.not_mem_nil
  have hchunks : (Manifest.fromFiles zeroFiles none).chunks.length = 3 := by
    have hhashes := congrArg List.length (Manifest.hashes_fromFiles zeroFiles none)
    rw [hashes_zeroFiles, Manifest.hashes, List.length_map] at hhashes
    exact hhashes
  have hpaths : ∀ entry ∈ entriesFrom 0 zeroFiles, entry.path.bytes.length < 2 ^ 64 ∧
      entry.PathOk := by
    intro entry he
    rw [FileEntry.PathOk]
    rcases hfiles entry he with hp | hp
    · rw [hp]
      exact ⟨by decide, by decide⟩
    · rw [hp]
      exact ⟨by decide, by decide⟩
  have hentries : (Manifest.fromFiles zeroFiles none).files = entriesFrom 0 zeroFiles := by
    rw [Manifest.fromFiles_eq]
  have htotal : (Manifest.fromFiles zeroFiles none).totalSize = 262146 := by
    rw [Manifest.fromFiles_eq, hlength]
    rfl
  refine ⟨⟨?_, ?_, ?_, ?_⟩, root_zeroFiles none, ?_, htotal, ?_⟩
  · rw [hchunks]
    decide
  · rw [hentries]
    decide
  · rw [hentries]
    exact fun entry he => (hpaths entry he).1
  · intro name hname
    cases hname
  · exact Manifest.covers_fromFiles none (by rw [hlength]; decide)
  · rw [hentries]
    exact fun entry he => (hpaths entry he).2

/-- With the manifest that was built of them the two files come through, and both exports give
them. -/
theorem download_fec_describes_zeros :
    let _ := blake3OfZeros
    let _ := maxFastCDC
    let _ := sourceSymbolCode
    let m := Manifest.fromFiles zeroFiles none
    ∃ st, runs (FecDownload.step rootOfZeros) (.begin (Disk.fresh ∅ ∅ some) Store.fresh)
        [.ok (.manifest (some m.toNptp)), .ok (.symbols zeroSymbols)] = some st ∧
      m.Describes st.disk st.store zeroFiles := by
  let _ := blake3OfZeros
  let _ := maxFastCDC
  let _ := sourceSymbolCode
  let m := Manifest.fromFiles zeroFiles none
  obtain ⟨hrep, hroot, hcovers, htotal, hpaths⟩ := zeroManifest_spec
  obtain ⟨st₀, st, hfirst, hsplits, hsecond, hok⟩ := runs_zeros hrep hroot hcovers htotal
  have hrun : runs (FecDownload.step rootOfZeros) (.begin (Disk.fresh ∅ ∅ some) Store.fresh)
      ([.ok (.manifest (some m.toNptp))] ++ [.ok (.symbols zeroSymbols)]) = some st :=
    runs_append.mpr ⟨st₀, hfirst, runs_cons.mpr ⟨st, hsecond, rfl⟩⟩
  obtain ⟨before, a, st₀', files, hanswers, hbefore, hsplits', -, hdescribes⟩ :=
    download_fec_describes_iff hrun hok
  -- the theorem speaks of this run
  obtain ⟨rfl, hlast⟩ := List.append_inj' hanswers rfl
  obtain rfl := List.singleton_inj.mp hlast
  obtain rfl := Option.some.inj (hbefore.symm.trans hfirst)
  obtain rfl := Option.some.inj (hsplits'.symm.trans hsplits)
  have hbinds : ¬Collision Hash.of (rootStrings m.hashes)
      (rootStrings ((treePieces zeroFiles).map Hash.of)) := by
    rw [show m.hashes = _ from hcovers.hashes, hashes_zeroFiles]
    exact not_collision_zeroFiles
  obtain ⟨hexports, hiff⟩ := hdescribes hbinds (noCollision_zeroFiles st.disk)
  have hcounts : m.CountsChunks zeroFiles := Manifest.countsChunks_fromFiles none (by
    rw [treeBytes_zeroFiles, List.length_replicate]
    decide)
  have hnoted : Store.fresh.Noted (Disk.fresh ∅ ∅ some) := by simp [Store.Noted, Store.fresh]
  exact ⟨st, hrun,
    hiff.mpr ⟨hcounts, hpaths, hexports Disk.steady_fresh Store.sound_fresh hnoted⟩⟩

end Np2ptp
