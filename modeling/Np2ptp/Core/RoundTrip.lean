import Np2ptp.Core.Reconstruct

/-!
# What was built is rebuilt

A manifest that `from_files` has built passes every check, and whoever gives the listed chunks for
their hashes gets the files back from it (`Manifest.fromFiles_rebuilds`): the two loops of
reconstruction meet the pieces of the files in the order in which the loops of `from_files` listed
them.
-/

namespace Np2ptp

open Lib

section

variable [Blake3] {σ : Type} {fetch : σ → Hash → Option Bytes × σ} {I : σ → Prop} {m : Manifest}

/-- As long as its state is as it should be, `fetch` gives a chunk with the hash it is asked for. -/
def Fetches (fetch : σ → Hash → Option Bytes × σ) (I : σ → Prop) (hashes : List Hash) : Prop :=
  ∀ s, I s → ∀ h ∈ hashes, ∃ bytes s', fetch s h = (some bytes, s') ∧ Hash.of bytes = h ∧ I s'

/-- It gives these very pieces for their hashes. -/
def Delivers (fetch : σ → Hash → Option Bytes × σ) (I : σ → Prop) (ps : List Bytes) : Prop :=
  ∀ s, I s → ∀ p ∈ ps, ∃ s', fetch s (Hash.of p) = (some p, s') ∧ I s'

theorem Delivers.mono {ps qs : List Bytes} (h : Delivers fetch I ps) (hsub : qs ⊆ ps) :
    Delivers fetch I qs := fun s hs p hp => h s hs p (hsub hp)

/-- What is fetched are the pieces, or it collides with one. -/
theorem Fetches.delivers {ps : List Bytes} (h : Fetches fetch I (ps.map Hash.of))
    (hbinds : ∀ s, I s → ∀ p ∈ ps, ∀ bytes s', fetch s (Hash.of p) = (some bytes, s') →
      Hash.of bytes = Hash.of p → bytes = p) : Delivers fetch I ps := by
  intro s hs p hp
  obtain ⟨bytes, s', hfetch, hhash, hs'⟩ := h s hs (Hash.of p) (List.mem_map_of_mem hp)
  have heq := hbinds s hs p hp bytes s' hfetch hhash
  exact ⟨s', heq ▸ hfetch, hs'⟩

/-! ## The loops -/

theorem Manifest.verifyChunk_of_hash {cref : ChunkRef} {ci : Nat} {bytes : Bytes}
    (hroot : m.rootIsConsistent = true) (hc : m.chunks[ci]? = some cref)
    (hhash : cref.hash = Hash.of bytes) : m.verifyChunk ci bytes = true := by
  rw [Manifest.verifyChunk_eq, hroot, Bool.and_true, Manifest.chunkHashOk, hc]
  exact beq_iff_eq.mpr hhash.symm

/-- The loop of `reconstruct` adds the pieces one after the other. -/
theorem Manifest.collectChunks_of_delivers (hroot : m.rootIsConsistent = true) :
    ∀ {chunks : List ChunkRef} {ps : List Bytes} {ci : Nat} (out : Bytes) {s : σ},
    m.chunks.drop ci = chunks → chunks.map ChunkRef.hash = ps.map Hash.of →
    Delivers fetch I ps → I s →
    ∃ s', m.collectChunks fetch chunks ci out s = (.ok (out ++ ps.flatten), s') ∧ I s'
  | [], [], _, out, s, _, _, _, hs => ⟨s, by simp [Manifest.collectChunks], hs⟩
  | [], p :: ps, _, _, _, _, h, _, _ => by cases h
  | c :: chunks, [], _, _, _, _, h, _, _ => by cases h
  | c :: chunks, p :: ps, ci, out, s, hdrop, hhashes, hd, hs => by
    obtain ⟨hhash, htail⟩ := List.cons.inj hhashes
    have hc : m.chunks[ci]? = some c := by
      rw [← List.head?_drop, hdrop]
      rfl
    have hrest : m.chunks.drop (ci + 1) = chunks := by
      rw [← List.tail_drop, hdrop]
      rfl
    obtain ⟨s₁, hfetch, hs₁⟩ := hd s hs p List.mem_cons_self
    obtain ⟨s₂, hloop, hs₂⟩ := Manifest.collectChunks_of_delivers hroot (out ++ p) hrest htail
      (hd.mono (List.subset_cons_self _ _)) hs₁
    refine ⟨s₂, ?_, hs₂⟩
    rw [Manifest.collectChunks, hhash, hfetch]
    dsimp only
    rw [if_pos (Manifest.verifyChunk_of_hash hroot hc hhash), hloop, List.flatten_cons,
      List.append_assoc]

/-- The inner loop of `reconstruct_files` adds the pieces of its range. -/
theorem Manifest.collectRange_of_delivers (hroot : m.rootIsConsistent = true) :
    ∀ {ps : List Bytes} {ci : Nat} (out : Bytes) {s : σ},
    ((m.chunks.drop ci).take ps.length).map ChunkRef.hash = ps.map Hash.of →
    Delivers fetch I ps → I s →
    ∃ s', m.collectRange fetch ps.length ci out s = (.ok (out ++ ps.flatten), s') ∧ I s'
  | [], _, out, s, _, _, hs => ⟨s, by simp [Manifest.collectRange], hs⟩
  | p :: ps, ci, out, s, hhashes, hd, hs => by
    rcases hc : m.chunks[ci]? with _ | c
    · rw [List.getElem?_eq_none_iff] at hc
      rw [List.drop_eq_nil_of_le hc] at hhashes
      cases hhashes
    · obtain ⟨hlt, hget⟩ := List.getElem?_eq_some_iff.mp hc
      rw [List.drop_eq_getElem_cons hlt, hget, List.length_cons, List.take_succ_cons] at hhashes
      obtain ⟨hhash, htail⟩ := List.cons.inj hhashes
      obtain ⟨s₁, hfetch, hs₁⟩ := hd s hs p List.mem_cons_self
      obtain ⟨s₂, hloop, hs₂⟩ := Manifest.collectRange_of_delivers hroot (out ++ p)
        htail (hd.mono (List.subset_cons_self _ _)) hs₁
      refine ⟨s₂, ?_, hs₂⟩
      rw [List.length_cons, Manifest.collectRange, hc]
      dsimp only
      rw [hhash, hfetch]
      dsimp only
      rw [if_pos (Manifest.verifyChunk_of_hash hroot hc hhash), hloop, List.flatten_cons,
        List.append_assoc]

section

variable [FastCDC]

/-- The outer loop of `reconstruct_files` meets the pieces of one file after the other. -/
theorem Manifest.collectFiles_of_delivers (hroot : m.rootIsConsistent = true) :
    ∀ (files : List (Text × Bytes)) (pre : List ChunkRef) {offset : Nat}
      (out : List (Text × Bytes)) {s : σ}, m.chunks = pre ++ refsFrom offset files →
    pre.length + (treeBytes files).length < 2 ^ 64 → Delivers fetch I (treePieces files) → I s →
    ∃ s', m.collectFiles fetch (entriesFrom pre.length files) out s = (.ok (out ++ files), s') ∧
      I s'
  | [], _, _, out, s, _, _, _, hs => ⟨s, by simp [entriesFrom, Manifest.collectFiles], hs⟩
  | f :: files, pre, offset, out, s, hchunks, hlt, hd, hs => by
    let own : List ChunkRef :=
      (chunk f.2).map fun s => ⟨s.hash, UInt64.ofNat offset + s.offset, s.length⟩
    let ps := FastCDC.slice.pieces f.2
    rw [treeBytes_cons, List.length_append] at hlt
    rw [treePieces_cons] at hd
    have hcount : (chunk f.2).length = ps.length := by
      have h := congrArg List.length (map_hash_chunk f.2)
      rwa [List.length_map, List.length_map] at h
    have hle := length_chunk_le f.2
    have hown : own.length = (chunk f.2).length := List.length_map _
    have hafter : m.chunks = (pre ++ own) ++ refsFrom (offset + f.2.length) files := by
      rw [hchunks, refsFrom, List.append_assoc]
    have hrange : ((m.chunks.drop pre.length).take ps.length).map ChunkRef.hash =
        ps.map Hash.of := by
      rw [hafter, List.append_assoc, List.drop_left, ← hcount, ← hown, List.take_left,
        ← map_hash_chunk, List.map_map]
      rfl
    obtain ⟨s₁, hfile, hs₁⟩ := Manifest.collectRange_of_delivers hroot [] hrange
      (hd.mono (List.subset_append_left _ _)) hs
    obtain ⟨s₂, hrest, hs₂⟩ := Manifest.collectFiles_of_delivers hroot files
      (pre ++ own) (out ++ [f]) hafter (by rw [List.length_append, hown]; omega)
      (hd.mono (List.subset_append_right _ _)) hs₁
    refine ⟨s₂, ?_, hs₂⟩
    have hflat : ps.flatten = f.2 := FastCDC.slice.flatten_pieces f.2
    rw [List.nil_append, hflat] at hfile
    rw [List.length_append, hown, List.append_assoc] at hrest
    rw [entriesFrom, Manifest.collectFiles]
    dsimp only
    rw [toNat_u64 (by omega), toNat_u64 (by omega), toNat_u64 (by omega), hcount, hfile]
    dsimp only
    rw [if_neg (by simp), ← hcount]
    exact hrest

/-! ## Offsets -/

omit [Blake3] [FastCDC] in
/-- Every chunk begins where the one before it ends, and the first at `start`. -/
def Consecutive : Nat → List ChunkRef → Prop
  | _, [] => True
  | start, c :: chunks => c.offset.toNat = start ∧ Consecutive (start + c.length.toNat) chunks

omit [Blake3] [FastCDC] in
theorem Consecutive.append : ∀ {start : Nat} {cs ds : List ChunkRef}, Consecutive start cs →
    Consecutive (start + (cs.map fun c => c.length.toNat).sum) ds → Consecutive start (cs ++ ds)
  | _, [], _, _, hd => hd
  | start, c :: cs, ds, hc, hd => by
    rw [List.map_cons, List.sum_cons, ← Nat.add_assoc] at hd
    exact ⟨hc.1, hc.2.append hd⟩

omit [FastCDC] in
/-- The spans of consecutive pieces, moved to where their file begins. -/
theorem consecutive_spansFrom (offset : Nat) : ∀ (ps : List Bytes) (start : Nat),
    (∀ p ∈ ps, p.length ≤ MAX_CHUNK) → offset + start + ps.flatten.length < 2 ^ 64 →
    Consecutive (offset + start) ((spansFrom start ps).map fun s =>
      ⟨s.hash, UInt64.ofNat offset + s.offset, s.length⟩)
  | [], _, _, _ => trivial
  | p :: ps, start, hle, hlt => by
    rw [List.flatten_cons, List.length_append] at hlt
    have hp : p.length < 2 ^ 32 := (hle p List.mem_cons_self).trans_lt (by decide)
    have hlength : (UInt32.ofNat p.length).toNat = p.length := UInt32.toNat_ofNat_of_lt' hp
    have ih := consecutive_spansFrom offset ps (start + p.length)
      (fun q hq => hle q (List.mem_cons_of_mem _ hq)) (by omega)
    constructor
    · show (UInt64.ofNat offset + UInt64.ofNat start).toNat = offset + start
      rw [← UInt64.ofNat_add, toNat_u64 (by omega)]
    · show Consecutive (offset + start + (UInt32.ofNat p.length).toNat) _
      rw [hlength, Nat.add_assoc]
      exact ih

/-- The references of a tree begin one where the other ends. -/
theorem consecutive_refsFrom : ∀ (files : List (Text × Bytes)) (offset : Nat),
    offset + (treeBytes files).length < 2 ^ 64 → Consecutive offset (refsFrom offset files)
  | [], _, _ => trivial
  | f :: files, offset, hlt => by
    rw [treeBytes_cons, List.length_append] at hlt
    have hflat := FastCDC.slice.flatten_pieces f.2
    have hown := consecutive_spansFrom offset (FastCDC.slice.pieces f.2) 0
      (FastCDC.slice.length_le f.2) (by rw [hflat]; omega)
    rw [refsFrom]
    refine Consecutive.append (by rwa [chunk_eq]) ?_
    rw [sum_chunk]
    exact consecutive_refsFrom files _ (by omega)

/-! ## The whole -/

/-- Whatever the builder produces satisfies every check and rebuilds its input: the root is that of
the chunks, the manifest validates, the chunks are consecutive, and whatever gives a chunk with the
hash that it is asked for rebuilds the files from it, one by one and as a stream that is split,
unless a chunk it gave collides with a piece of the files. -/
theorem Manifest.fromFiles_rebuilds (files : List (Text × Bytes)) (name : Option Text)
    (hsize : (treeBytes files).length < 2 ^ 64) (fetch : σ → Hash → Option Bytes × σ) (I : σ → Prop)
    (hfetch : Fetches fetch I (Manifest.fromFiles files name).hashes) (s : σ) (hs : I s) :
    let m := Manifest.fromFiles files name
    m.rootIsConsistent = true ∧ m.validate = .ok () ∧ Consecutive 0 m.chunks ∧
      ((∃ s', m.reconstructFiles fetch s = (.ok files, s')) ∧
          (∃ out s', m.reconstruct fetch s = (.ok out, s') ∧ m.splitStream out = .ok files) ∨
        ∃ s bytes s' p, I s ∧ p ∈ treePieces files ∧ fetch s (Hash.of p) = (some bytes, s') ∧
          bytes ≠ p ∧ Hash.of bytes = Hash.of p) := by
  intro m
  have hroot : m.rootIsConsistent = true := beq_iff_eq.mpr rfl
  have hvalid : m.validate = .ok () := Manifest.validate_fromFiles name hsize
  have hchunks : m.chunks = refsFrom 0 files := by
    rw [show m = _ from Manifest.fromFiles_eq files name]
  have hentries : m.files = entriesFrom 0 files := by
    rw [show m = _ from Manifest.fromFiles_eq files name]
  refine ⟨hroot, hvalid, hchunks ▸ consecutive_refsFrom files 0 (by omega), ?_⟩
  by_cases hcollision : ∃ s bytes s' p, I s ∧ p ∈ treePieces files ∧
      fetch s (Hash.of p) = (some bytes, s') ∧ bytes ≠ p ∧ Hash.of bytes = Hash.of p
  · exact .inr hcollision
  left
  rw [Manifest.hashes_fromFiles] at hfetch
  have hd : Delivers fetch I (treePieces files) := hfetch.delivers fun s hs p hp bytes s' h hh => by
    by_contra hne
    exact hcollision ⟨s, bytes, s', p, hs, hp, h, hne, hh⟩
  constructor
  · obtain ⟨s', hloop, -⟩ := Manifest.collectFiles_of_delivers hroot files [] [] hchunks
      (by simpa using hsize) hd hs
    refine ⟨s', ?_⟩
    rw [Manifest.reconstructFiles, hvalid, hentries]
    exact hloop
  · obtain ⟨s', hloop, -⟩ := Manifest.collectChunks_of_delivers hroot []
      (List.drop_zero (l := m.chunks)) (Manifest.hashes_fromFiles files name) hd hs
    rw [List.nil_append, flatten_treePieces] at hloop
    refine ⟨treeBytes files, s', ?_, Manifest.splitStream_fromFiles name hsize⟩
    have htotal : m.totalSize.toNat = (treeBytes files).length := by
      rw [show m = _ from Manifest.fromFiles_eq files name]
      exact toNat_u64 hsize
    rw [Manifest.reconstruct, hvalid]
    dsimp only
    rw [hloop]
    exact if_neg (by simp [htotal, treeBytes])

end

end

/-- A fetch function that has the chunks of the three files. -/
def fetchThree (_ : Unit) (h : Hash) : Option Bytes × Unit :=
  ([(digestOfX, [120]), (digestOfXX, [120, 120]), (digestOfY, [121])].lookup h, ())

/-- The three files are rebuilt from their chunks. -/
theorem fromFiles_rebuilds_three :
    let _ := blake3OfThree
    let _ := minFastCDC
    (Manifest.fromFiles filesOfThree none).reconstructFiles fetchThree () =
      (.ok filesOfThree, ()) := by
  intro _ _
  have hpieces : treePieces filesOfThree = [[120], [120, 120], [121]] := by decide
  have hfetch : Fetches fetchThree (fun _ => True)
      (Manifest.fromFiles filesOfThree none).hashes := by
    rintro ⟨⟩ _ h hh
    rw [Manifest.hashes_fromFiles, hpieces] at hh
    simp only [List.map_cons, List.map_nil, List.mem_cons, List.not_mem_nil, or_false] at hh
    rcases hh with rfl | rfl | rfl
    · exact ⟨[120], (), by decide, rfl, trivial⟩
    · exact ⟨[120, 120], (), by decide, rfl, trivial⟩
    · exact ⟨[121], (), by decide, rfl, trivial⟩
  obtain ⟨-, -, -, ⟨⟨s', h⟩, -⟩ | ⟨s, bytes, s', p, -, hp, -, hne, hh⟩⟩ :=
    Manifest.fromFiles_rebuilds filesOfThree none (by decide) fetchThree (fun _ => True) hfetch
      () trivial
  · exact h
  · rw [hpieces] at hp
    exact absurd (eq_of_digestOfThree hp hh) hne

end Np2ptp
