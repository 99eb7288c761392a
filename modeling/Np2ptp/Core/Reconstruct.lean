import Np2ptp.Core.BuiltManifest
import Np2ptp.Core.ManifestLaws
import Np2ptp.Lib.Slices

/-!
# What reconstruction accepts

The loops of `reconstruct` and `reconstruct_files` go through the listed chunks and keep pieces of
the listed hashes; `reconstruct_files` meets every chunk once and in order, since the file table
tiles the list. Each piece also has to pass its inclusion proof, and with it the root. Where there
is no piece there is no such check (`reconstruct_binds_iff`).
-/

namespace Np2ptp

open Lib

variable [Blake3] {σ : Type} {fetch : σ → Hash → Option Bytes × σ} {m : Manifest}

/-- A chunk that passes the full check has the listed hash, and the root is that of the list. -/
theorem Manifest.of_verifyChunk {cref : ChunkRef} {ci : Nat} {bytes : Bytes}
    (hc : m.chunks[ci]? = some cref) (h : m.verifyChunk ci bytes = true) :
    Hash.of bytes = cref.hash ∧ m.rootIsConsistent = true := by
  rw [Manifest.verifyChunk_eq, Bool.and_eq_true, Manifest.chunkHashOk, hc] at h
  exact ⟨beq_iff_eq.mp h.1, h.2⟩

/-! ## Reading the listed chunks -/

/-- A fetch function whose state is taken along gives one piece for each hash. -/
def Fetched (fetch : σ → Hash → Option Bytes × σ) : σ → List Hash → List Bytes → Prop
  | _, [], [] => True
  | s, h :: hashes, p :: pieces =>
    (fetch s h).1 = some p ∧ Fetched fetch (fetch s h).2 hashes pieces
  | _, _, _ => False

/-- The state after fetching some hashes in order. -/
def fetchAll (fetch : σ → Hash → Option Bytes × σ) (s : σ) (hashes : List Hash) : σ :=
  hashes.foldl (fun s h => (fetch s h).2) s

omit [Blake3] in
theorem fetchAll_append (s : σ) (hashes more : List Hash) :
    fetchAll fetch s (hashes ++ more) = fetchAll fetch (fetchAll fetch s hashes) more :=
  List.foldl_append

omit [Blake3] in
/-- Reading is a function: the pieces read for some hashes are no others. -/
theorem Fetched.unique {s : σ} {hashes : List Hash} {ps qs : List Bytes}
    (hp : Fetched fetch s hashes ps) (hq : Fetched fetch s hashes qs) : ps = qs := by
  induction hashes generalizing s ps qs with
  | nil =>
    cases ps with
    | nil =>
      cases qs with
      | nil => rfl
      | cons q qs => exact absurd hq id
    | cons p ps => exact absurd hp id
  | cons h hashes ih =>
    cases ps with
    | nil => exact absurd hp id
    | cons p ps =>
      cases qs with
      | nil => exact absurd hq id
      | cons q qs =>
        rw [Option.some.inj (hp.1.symm.trans hq.1), ih hp.2 hq.2]

omit [Blake3] in
/-- Reading a list in two parts. -/
theorem fetched_append {s : σ} {hashes more : List Hash} {pieces : List Bytes} :
    Fetched fetch s (hashes ++ more) pieces ↔ ∃ ps qs, Fetched fetch s hashes ps ∧
      Fetched fetch (fetchAll fetch s hashes) more qs ∧ pieces = ps ++ qs := by
  induction hashes generalizing s pieces with
  | nil =>
    constructor
    · intro h
      exact ⟨[], pieces, trivial, h, rfl⟩
    · rintro ⟨ps, qs, hps, hqs, rfl⟩
      cases ps with
      | nil => exact hqs
      | cons p ps => exact absurd hps id
  | cons h hashes ih =>
    constructor
    · intro hall
      cases pieces with
      | nil => exact absurd hall id
      | cons p pieces =>
        obtain ⟨ps, qs, hps, hqs, rfl⟩ := ih.mp hall.2
        exact ⟨p :: ps, qs, ⟨hall.1, hps⟩, hqs, rfl⟩
    · rintro ⟨ps, qs, hps, hqs, rfl⟩
      cases ps with
      | nil => exact absurd hps id
      | cons p ps => exact ⟨hps.1, ih.mpr ⟨ps, qs, hps.2, hqs, rfl⟩⟩

omit [Blake3] in
/-- One piece is read for each hash. -/
theorem Fetched.length_eq {s : σ} {hashes : List Hash} {pieces : List Bytes}
    (h : Fetched fetch s hashes pieces) : pieces.length = hashes.length := by
  induction hashes generalizing s pieces with
  | nil =>
    cases pieces with
    | nil => rfl
    | cons p pieces => exact absurd h id
  | cons g hashes ih =>
    cases pieces with
    | nil => exact absurd h id
    | cons p pieces => rw [List.length_cons, List.length_cons, ih h.2]

/-- What every fetch keeps of its state, the loop of `reconstruct` keeps. -/
theorem Manifest.collectChunks_keeps {I : σ → Prop} (hI : ∀ s h, I s → I (fetch s h).2) :
    ∀ (chunks : List ChunkRef) (ci : Nat) (out : Bytes) (s : σ), I s →
      I (m.collectChunks fetch chunks ci out s).2
  | [], _, _, _, h => h
  | cref :: chunks, ci, out, s, h => by
    have hnext := hI s cref.hash h
    rw [Manifest.collectChunks]
    rcases hf : fetch s cref.hash with ⟨_ | bytes, s₁⟩
    · rw [hf] at hnext
      exact hnext
    · rw [hf] at hnext
      dsimp only
      split
      · exact Manifest.collectChunks_keeps hI chunks (ci + 1) (out ++ bytes) s₁ hnext
      · exact hnext

/-- What every fetch keeps of its state, `reconstruct` keeps. -/
theorem Manifest.reconstruct_keeps {I : σ → Prop} (hI : ∀ s h, I s → I (fetch s h).2) {s : σ}
    (h : I s) : I (m.reconstruct fetch s).2 := by
  have hloop := Manifest.collectChunks_keeps (m := m) hI m.chunks 0 [] s h
  rw [Manifest.reconstruct]
  split
  · exact h
  · rcases hc : m.collectChunks fetch m.chunks 0 [] s with ⟨_ | out, s₁⟩
    · rw [hc] at hloop
      exact hloop
    · rw [hc] at hloop
      dsimp only
      split
      · exact hloop
      · exact hloop

/-- What every fetch keeps of its state, the inner loop of `reconstruct_files` keeps. -/
theorem Manifest.collectRange_keeps {I : σ → Prop} (hI : ∀ s h, I s → I (fetch s h).2) :
    ∀ (count ci : Nat) (out : Bytes) (s : σ), I s → I (m.collectRange fetch count ci out s).2
  | 0, _, _, _, h => h
  | count + 1, ci, out, s, h => by
    rw [Manifest.collectRange]
    split
    · exact h
    · next cref _ =>
      have hnext := hI s cref.hash h
      rcases hf : fetch s cref.hash with ⟨_ | bytes, s₁⟩
      · rw [hf] at hnext
        exact hnext
      · rw [hf] at hnext
        dsimp only
        split
        · exact Manifest.collectRange_keeps hI count (ci + 1) (out ++ bytes) s₁ hnext
        · exact hnext

/-- What every fetch keeps of its state, `reconstruct_files` keeps. -/
theorem Manifest.reconstructFiles_keeps {I : σ → Prop} (hI : ∀ s h, I s → I (fetch s h).2) {s : σ}
    (h : I s) : I (m.reconstructFiles fetch s).2 := by
  have hloop : ∀ (entries : List FileEntry) (out : List (Text × Bytes)) (s : σ), I s →
      I (m.collectFiles fetch entries out s).2 := by
    intro entries
    induction entries with
    | nil => exact fun _ _ h => h
    | cons entry entries ih =>
      intro out s h
      have hrange := Manifest.collectRange_keeps (m := m) hI entry.chunkCount.toNat
        entry.chunkStart.toNat [] s h
      rw [Manifest.collectFiles]
      rcases hr : m.collectRange fetch entry.chunkCount.toNat entry.chunkStart.toNat [] s with
        ⟨_ | bytes, s₁⟩
      · rw [hr] at hrange
        exact hrange
      · rw [hr] at hrange
        dsimp only
        split
        · exact hrange
        · exact ih _ _ hrange
  rw [Manifest.reconstructFiles]
  split
  · exact h
  · exact hloop m.files [] s h

/-- The loop of `reconstruct` ends well exactly on pieces of the listed hashes, under the root. -/
theorem Manifest.collectChunks_eq_ok {chunks : List ChunkRef} {ci : Nat} {out b : Bytes} {s s' : σ}
    (hpre : chunks <+: m.chunks.drop ci) :
    m.collectChunks fetch chunks ci out s = (.ok b, s') ↔
      s' = fetchAll fetch s (chunks.map ChunkRef.hash) ∧
      (chunks ≠ [] → m.rootIsConsistent = true) ∧
      ∃ ps, Fetched fetch s (chunks.map ChunkRef.hash) ps ∧
        ps.map Hash.of = chunks.map ChunkRef.hash ∧ b = out ++ ps.flatten := by
  induction chunks generalizing ci out s with
  | nil =>
    constructor
    · intro h
      cases h
      exact ⟨rfl, fun h => absurd rfl h, [], trivial, rfl, by simp⟩
    · rintro ⟨rfl, -, ps, -, hps, rfl⟩
      obtain rfl := List.map_eq_nil_iff.mp hps
      simp [Manifest.collectChunks]
  | cons cref chunks ih =>
    obtain ⟨after, hafter⟩ := hpre
    have hc : m.chunks[ci]? = some cref := by
      rw [← List.head?_drop, ← hafter]
      rfl
    have hrest : chunks <+: m.chunks.drop (ci + 1) := by
      refine ⟨after, ?_⟩
      rw [← List.tail_drop, ← hafter]
      rfl
    rw [Manifest.collectChunks]
    constructor
    · intro h
      split at h
      · cases h
      · next bytes s₁ hf =>
        split at h
        · next hv =>
          obtain ⟨hhash, hcons⟩ := Manifest.of_verifyChunk hc hv
          obtain ⟨hs', -, ps, hfetched, hps, rfl⟩ := (ih hrest).mp h
          refine ⟨?_, fun _ => hcons, bytes :: ps, ⟨by rw [hf], ?_⟩, ?_, by simp⟩
          · rw [hs', List.map_cons, fetchAll, fetchAll, List.foldl_cons, hf]
          · rwa [hf]
          · rw [List.map_cons, hhash, hps, List.map_cons]
        · cases h
    · rintro ⟨rfl, hcons, ps, hfetched, hps, rfl⟩
      cases ps with
      | nil => exact absurd hfetched id
      | cons p ps =>
        obtain ⟨hp, hfetched⟩ := hfetched
        obtain ⟨hhash, hps⟩ := List.cons.inj hps
        have hv : m.verifyChunk ci p = true := by
          rw [Manifest.verifyChunk_eq, Manifest.chunkHashOk, hc, hcons (List.cons_ne_nil _ _)]
          simpa using hhash
        rcases hf : fetch s cref.hash with ⟨got, s₁⟩
        rw [hf] at hp hfetched
        obtain rfl : got = some p := hp
        dsimp only
        rw [if_pos hv, (ih hrest).mpr ⟨?_, fun _ => hcons (List.cons_ne_nil _ _), ps, hfetched, hps,
          by simp⟩]
        rw [List.map_cons, fetchAll, fetchAll, List.foldl_cons, hf]

/-- Within the chunk list, the inner loop of `reconstruct_files` is the loop of `reconstruct` over
its range. -/
theorem Manifest.collectRange_eq {count ci : Nat} (hle : ci + count ≤ m.chunks.length) (out : Bytes)
    (s : σ) : m.collectRange fetch count ci out s =
      m.collectChunks fetch ((m.chunks.drop ci).take count) ci out s := by
  induction count generalizing ci out s with
  | zero => rfl
  | succ count ih =>
    have hlt : ci < m.chunks.length := by omega
    have hc : m.chunks[ci]? = some m.chunks[ci] := List.getElem?_eq_getElem hlt
    rw [Manifest.collectRange, hc, List.drop_eq_getElem_cons hlt, List.take_succ_cons,
      Manifest.collectChunks]
    dsimp only
    rcases fetch s m.chunks[ci].hash with ⟨_ | bytes, s'⟩
    · rfl
    · dsimp only
      rw [ih (by omega)]

/-! ## By a file table -/

/-- What a file table makes of the pieces that are read. -/
def cutBy (entries : List FileEntry) (pieces : List Bytes) : List (Text × Bytes) :=
  (entries.map FileEntry.path).zip
    ((slices (entries.map fun e => e.chunkCount.toNat) pieces).map List.flatten)

omit [Blake3] in
theorem cutBy_cons (entry : FileEntry) (entries : List FileEntry) (ps qs : List Bytes)
    (h : ps.length = entry.chunkCount.toNat) :
    cutBy (entry :: entries) (ps ++ qs) = (entry.path, ps.flatten) :: cutBy entries qs := by
  rw [cutBy, List.map_cons, List.map_cons, slices, ← h, List.take_left, List.drop_left]
  rfl

omit [Blake3] in
theorem cutBy_paths (entries : List FileEntry) (pieces : List Bytes) :
    (cutBy entries pieces).map Prod.fst = entries.map FileEntry.path := by
  rw [cutBy, List.map_fst_zip]
  simp

omit [Blake3] in
/-- The pieces, in order, make up the contents of the files. -/
theorem treeBytes_cutBy {entries : List FileEntry} {pieces : List Bytes}
    (h : pieces.length = (entries.map fun e => e.chunkCount.toNat).sum) :
    treeBytes (cutBy entries pieces) = pieces.flatten := by
  induction entries generalizing pieces with
  | nil =>
    obtain rfl := List.length_eq_zero_iff.mp h
    rfl
  | cons entry entries ih =>
    rw [List.map_cons, List.sum_cons] at h
    have hfirst : (pieces.take entry.chunkCount.toNat).length = entry.chunkCount.toNat := by
      rw [List.length_take]
      omega
    conv_lhs => rw [← List.take_append_drop entry.chunkCount.toNat pieces]
    rw [cutBy_cons _ _ _ _ hfirst, treeBytes_cons, ih (by rw [List.length_drop]; omega),
      ← List.flatten_append, List.take_append_drop]

/-- Every file of the table has as many bytes in its pieces as it declares. -/
def FitsSizes (entries : List FileEntry) (pieces : List Bytes) : Prop :=
  (cutBy entries pieces).map (fun f => f.2.length) = entries.map fun e => e.size.toNat

/-- One file of the outer loop: its range is collected, and is as long as its entry says. -/
theorem Manifest.collectFiles_cons_eq_ok {entry : FileEntry} {entries : List FileEntry}
    {out files : List (Text × Bytes)} {s s' : σ} :
    m.collectFiles fetch (entry :: entries) out s = (.ok files, s') ↔ ∃ bytes s₁,
      m.collectRange fetch entry.chunkCount.toNat entry.chunkStart.toNat [] s = (.ok bytes, s₁) ∧
      bytes.length = entry.size.toNat ∧
      m.collectFiles fetch entries (out ++ [(entry.path, bytes)]) s₁ = (.ok files, s') := by
  rw [Manifest.collectFiles]
  constructor
  · intro h
    split at h
    · cases h
    · next bytes s₁ hr =>
      split at h
      · cases h
      · next hlen => exact ⟨bytes, s₁, hr, not_not.mp hlen, h⟩
  · rintro ⟨bytes, s₁, hr, hlen, hrest⟩
    rw [hr]
    dsimp only
    rwa [if_neg (not_not.mpr hlen)]

omit [Blake3] in
/-- The hashes of a file, and those that come after it. -/
theorem Manifest.hashes_drop (cursor count : Nat) :
    m.hashes.drop cursor =
      (m.hashes.drop cursor).take count ++ m.hashes.drop (cursor + count) := by
  rw [← List.drop_drop, List.take_append_drop]

omit [Blake3] in
theorem Manifest.length_take_hashes {cursor count : Nat}
    (hbound : cursor + count ≤ m.chunks.length) :
    ((m.hashes.drop cursor).take count).length = count := by
  rw [List.length_take, List.length_drop, Manifest.hashes, List.length_map]
  omega

/-- The outer loop over a file table that validates ends well exactly on pieces of the listed
hashes, under the root, that fill each file as declared. -/
theorem Manifest.collectFiles_eq_ok {entries : List FileEntry} {cursor fileBytes : Nat}
    {r : Nat × Nat} {out files : List (Text × Bytes)} {s s' : σ}
    (hv : validateFiles m.chunks entries cursor fileBytes = .ok r)
    (hend : r.1 = m.chunks.length) :
    m.collectFiles fetch entries out s = (.ok files, s') ↔
      s' = fetchAll fetch s (m.hashes.drop cursor) ∧
      ((∃ entry ∈ entries, entry.chunkCount.toNat ≠ 0) → m.rootIsConsistent = true) ∧
      ∃ ps, Fetched fetch s (m.hashes.drop cursor) ps ∧ ps.map Hash.of = m.hashes.drop cursor ∧
        FitsSizes entries ps ∧ files = out ++ cutBy entries ps := by
  induction entries generalizing cursor fileBytes out s with
  | nil =>
    cases hv
    have hnil : m.hashes.drop cursor = [] := by
      refine List.drop_of_length_le ?_
      rw [Manifest.hashes, List.length_map]
      exact hend.ge
    rw [hnil]
    constructor
    · intro h
      cases h
      refine ⟨rfl, ?_, [], trivial, rfl, rfl, by simp [cutBy]⟩
      rintro ⟨_, he, -⟩
      exact absurd he List.not_mem_nil
    · rintro ⟨rfl, -, ps, -, -, -, rfl⟩
      rw [show cutBy [] ps = [] from rfl, List.append_nil]
      rfl
  | cons entry entries ih =>
    obtain ⟨hstart, -, hbound, -, hrest⟩ := validateFiles_cons_ok hv
    have hrange : m.collectRange fetch entry.chunkCount.toNat entry.chunkStart.toNat [] s =
        m.collectChunks fetch ((m.chunks.drop cursor).take entry.chunkCount.toNat) cursor [] s := by
      rw [hstart]
      exact Manifest.collectRange_eq hbound [] s
    have hhashes : ((m.chunks.drop cursor).take entry.chunkCount.toNat).map ChunkRef.hash =
        (m.hashes.drop cursor).take entry.chunkCount.toNat := by
      rw [Manifest.hashes, List.map_take, List.map_drop]
    have hcut := Manifest.hashes_drop (m := m) cursor entry.chunkCount.toNat
    have hlength := Manifest.length_take_hashes hbound
    have hne : (m.chunks.drop cursor).take entry.chunkCount.toNat ≠ [] ↔
        entry.chunkCount.toNat ≠ 0 := by
      rw [← List.length_pos_iff, ← List.length_map (f := ChunkRef.hash), hhashes, hlength]
      exact Nat.pos_iff_ne_zero
    rw [Manifest.collectFiles_cons_eq_ok, hrange, hcut]
    constructor
    · rintro ⟨bytes, s₁, hr, hlen, hf⟩
      obtain ⟨rfl, hroot, ps, hps, hof, rfl⟩ :=
        (Manifest.collectChunks_eq_ok (List.take_prefix _ _)).mp hr
      rw [hhashes] at hps hof hf
      obtain ⟨rfl, hroots, qs, hqs, hofs, hfit, rfl⟩ := (ih hrest).mp hf
      have hcons := cutBy_cons entry entries ps qs (hps.length_eq.trans hlength)
      refine ⟨(fetchAll_append _ _ _).symm, ?_, ps ++ qs,
        fetched_append.mpr ⟨ps, qs, hps, hqs, rfl⟩, ?_, ?_, ?_⟩
      · rintro ⟨e, he, hcount⟩
        rcases List.mem_cons.mp he with rfl | he
        · exact hroot (hne.mpr hcount)
        · exact hroots ⟨e, he, hcount⟩
      · rw [List.map_append, hof, hofs]
      · rw [FitsSizes, hcons, List.map_cons, List.map_cons, hfit]
        exact congrArg (· :: _) hlen
      · rw [hcons, List.append_assoc]
        rfl
    · rintro ⟨rfl, hroots, all, hall, hof, hfit, rfl⟩
      obtain ⟨ps, qs, hps, hqs, rfl⟩ := fetched_append.mp hall
      have hlen := hps.length_eq.trans hlength
      have hcons := cutBy_cons entry entries ps qs hlen
      rw [List.map_append] at hof
      obtain ⟨hofp, hofq⟩ := List.append_inj hof (by rw [List.length_map, hps.length_eq])
      rw [FitsSizes, hcons, List.map_cons, List.map_cons] at hfit
      obtain ⟨hsize, hfit⟩ := List.cons.inj hfit
      rw [← hhashes] at hps hofp
      refine ⟨ps.flatten, _, (Manifest.collectChunks_eq_ok (List.take_prefix _ _)).mpr
        ⟨rfl, fun h => hroots ⟨entry, List.mem_cons_self, hne.mp h⟩, ps, hps, hofp, rfl⟩, hsize, ?_⟩
      rw [hhashes]
      refine (ih hrest).mpr ⟨fetchAll_append _ _ _, ?_, qs, hqs, hofq, hfit, ?_⟩
      · rintro ⟨e, he, hcount⟩
        exact hroots ⟨e, List.mem_cons_of_mem _ he, hcount⟩
      · rw [hcons, List.append_assoc]
        rfl

/-! ## When the two functions succeed -/

/-- The manifest validates, and these pieces are fetched for the chunks that it lists: each has the
listed hash, and the hashes make up the root if there are any. -/
structure Manifest.Supplied (m : Manifest) (fetch : σ → Hash → Option Bytes × σ) (s : σ)
    (pieces : List Bytes) : Prop where
  valid : m.validate = .ok ()
  fetched : Fetched fetch s m.hashes pieces
  hashes : pieces.map Hash.of = m.hashes
  root : m.chunks ≠ [] → m.rootIsConsistent = true

/-- When `reconstruct` succeeds: on pieces that are together as long as the manifest declares. -/
theorem Manifest.reconstruct_eq_ok {b : Bytes} {s s' : σ} :
    m.reconstruct fetch s = (.ok b, s') ↔ s' = fetchAll fetch s m.hashes ∧
      ∃ ps, m.Supplied fetch s ps ∧ b = ps.flatten ∧ b.length = m.totalSize.toNat := by
  have hloop : m.collectChunks fetch m.chunks 0 [] s = (.ok b, s') ↔ _ :=
    Manifest.collectChunks_eq_ok List.prefix_rfl
  simp only [List.nil_append] at hloop
  unfold Manifest.reconstruct
  constructor
  · intro h
    split at h
    · cases h
    · next hv =>
      split at h
      · cases h
      · next out s₁ hc =>
        split at h
        · cases h
        · next hlen =>
          cases h
          obtain ⟨hs, hroot, ps, hps, hof, hb⟩ := hloop.mp hc
          exact ⟨hs, ps, ⟨hv, hps, hof, hroot⟩, hb, not_not.mp hlen⟩
  · rintro ⟨hs, ps, hps, hb, hlen⟩
    rw [hps.valid, hloop.mpr ⟨hs, hps.root, ps, hps.fetched, hps.hashes, hb⟩]
    exact if_neg (not_not.mpr hlen)

/-- When `reconstruct_files` succeeds: on pieces that fill each file as the manifest declares. -/
theorem Manifest.reconstructFiles_eq_ok {files : List (Text × Bytes)} {s s' : σ} :
    m.reconstructFiles fetch s = (.ok files, s') ↔ s' = fetchAll fetch s m.hashes ∧
      ∃ ps, m.Supplied fetch s ps ∧ FitsSizes m.files ps ∧ files = cutBy m.files ps := by
  rw [Manifest.reconstructFiles]
  rcases hv : m.validate with e | ⟨⟩
  · constructor
    · intro h
      cases h
    · rintro ⟨-, ps, hps, -⟩
      rw [hps.valid] at hv
      cases hv
  · obtain ⟨r, hf, hr⟩ := validateFiles_of_validate hv
    have hroot : (∃ entry ∈ m.files, entry.chunkCount.toNat ≠ 0) → m.chunks ≠ [] := by
      rintro ⟨entry, he, hcount⟩ hnil
      have hbound := (Manifest.tiled_of_validate hv).bound entry he
      rw [hnil, List.length_nil] at hbound
      omega
    dsimp only
    rw [Manifest.collectFiles_eq_ok hf hr, List.drop_zero]
    constructor
    · rintro ⟨hs, hcons, ps, hps, hof, hfit, hfiles⟩
      exact ⟨hs, ps, ⟨hv, hps, hof,
        fun hne => hcons ((Manifest.tiled_of_validate hv).exists_chunk hne)⟩, hfit, hfiles⟩
    · rintro ⟨hs, ps, hps, hfit, hfiles⟩
      exact ⟨hs, fun h => hps.root (hroot h), ps, hps.fetched, hps.hashes, hfit, hfiles⟩

/-- Pieces of a manifest that are read one after the other are what it is reconstructed to, if it
validates and its total is their length, and otherwise it is reconstructed to nothing. -/
theorem Manifest.reconstruct_of_fetched {s : σ} {pieces : List Bytes}
    (hcons : m.rootIsConsistent = true) (hhashes : pieces.map Hash.of = m.hashes)
    (hf : Fetched fetch s m.hashes pieces) (full : Bytes) :
    (m.reconstruct fetch s).1 = .ok full ↔
      full = pieces.flatten ∧ m.validate = .ok () ∧ full.length = m.totalSize.toNat := by
  constructor
  · intro h
    obtain ⟨-, ps, hps, rfl, hlen⟩ := Manifest.reconstruct_eq_ok.mp
      (Prod.ext h rfl : m.reconstruct fetch s = (.ok full, _))
    exact ⟨by rw [hps.fetched.unique hf], hps.valid, hlen⟩
  · rintro ⟨rfl, hv, hlen⟩
    rw [Manifest.reconstruct_eq_ok.mpr ⟨rfl, pieces, ⟨hv, hf, hhashes, fun _ => hcons⟩, rfl, hlen⟩]

omit [Blake3] in
/-- The files have the paths and sizes of the file table. -/
theorem FitsSizes.table {entries : List FileEntry} {pieces : List Bytes}
    (h : FitsSizes entries pieces) : (cutBy entries pieces).map (fun f => (f.1, f.2.length)) =
      entries.map fun e => (e.path, e.size.toNat) := by
  have hzip : ∀ files : List (Text × Bytes), files.map (fun f => (f.1, f.2.length)) =
      (files.map Prod.fst).zip (files.map fun f => f.2.length) := by
    intro files
    rw [List.zip_map']
  rw [hzip, cutBy_paths, h, List.zip_map']

/-! ## The two functions -/

/-- Bytes that the root of a manifest commits to: the list makes up the root, and the bytes are
pieces of the listed hashes in order. -/
def Manifest.Commits (m : Manifest) (b : Bytes) : Prop :=
  merkleRoot m.hashes = m.root ∧ ∃ ps : List Bytes, ps.map Hash.of = m.hashes ∧ b = ps.flatten

/-- `reconstruct` gives pieces of the listed hashes; the root is checked if there are any. -/
theorem Manifest.reconstruct_ok {s : σ} {b : Bytes} (h : (m.reconstruct fetch s).1 = .ok b) :
    m.validate = .ok () ∧ (m.chunks ≠ [] → m.rootIsConsistent = true) ∧
      ∃ ps : List Bytes, ps.map Hash.of = m.hashes ∧ b = ps.flatten := by
  obtain ⟨-, ps, hps, hb, -⟩ :=
    Manifest.reconstruct_eq_ok.mp (Prod.ext h rfl : m.reconstruct fetch s = (.ok b, _))
  exact ⟨hps.valid, hps.root, ps, hps.hashes, hb⟩

/-- `reconstruct_files` gives the files of the table, made of pieces of the listed hashes; the root
is checked if there are any. -/
theorem Manifest.reconstructFiles_ok {s : σ} {files : List (Text × Bytes)}
    (h : (m.reconstructFiles fetch s).1 = .ok files) :
    m.validate = .ok () ∧ (m.chunks ≠ [] → m.rootIsConsistent = true) ∧
      files.map (fun f => (f.1, f.2.length)) = m.files.map (fun e => (e.path, e.size.toNat)) ∧
      ∃ ps : List Bytes, ps.map Hash.of = m.hashes ∧ treeBytes files = ps.flatten := by
  obtain ⟨-, ps, hps, hfit, rfl⟩ :=
    Manifest.reconstructFiles_eq_ok.mp
      (Prod.ext h rfl : m.reconstructFiles fetch s = (.ok files, _))
  refine ⟨hps.valid, hps.root, hfit.table, ps, hps.hashes, treeBytes_cutBy ?_⟩
  rw [hps.fetched.length_eq, Manifest.hashes, List.length_map]
  exact (Manifest.tiled_of_validate hps.valid).total.symm

/-- A manifest without chunks that validates is reconstructed to nothing. -/
theorem Manifest.reconstruct_nil (s : σ) (hnil : m.chunks = []) (hv : m.validate = .ok ()) :
    (m.reconstruct fetch s).1 = .ok [] := by
  have htotal : m.totalSize.toNat = 0 := by
    unfold Manifest.validate at hv
    split at hv
    · cases hv
    · next h =>
      rw [hnil] at h
      exact (not_not.mp h).symm
  rw [Manifest.reconstruct, hv, hnil]
  dsimp only [Manifest.collectChunks]
  rw [if_neg (by simp [htotal])]

/-- Reconstruction accepts only what the root commits to if and only if the root of the manifest, if
it validates and lists no chunks, is that of the empty list. -/
theorem reconstruct_binds_iff (m : Manifest) (fetch : σ → Hash → Option Bytes × σ) (s : σ) :
    ((∀ b, (m.reconstruct fetch s).1 = .ok b → m.Commits b) ∧
        ∀ files, (m.reconstructFiles fetch s).1 = .ok files → m.Commits (treeBytes files)) ↔
      (m.chunks = [] → m.validate = .ok () → m.root = merkleRoot []) := by
  constructor
  · rintro ⟨h, -⟩ hnil hv
    obtain ⟨hroot, -⟩ := h [] (Manifest.reconstruct_nil s hnil hv)
    rw [← hroot, Manifest.hashes, hnil]
    rfl
  · intro hempty
    have hroot : m.validate = .ok () → (m.chunks ≠ [] → m.rootIsConsistent = true) →
        merkleRoot m.hashes = m.root := by
      intro hv hcons
      by_cases hnil : m.chunks = []
      · rw [hempty hnil hv, Manifest.hashes, hnil]
        rfl
      · exact beq_iff_eq.mp (hcons hnil)
    refine ⟨fun b hb => ?_, fun files hf => ?_⟩
    · obtain ⟨hv, hcons, hpieces⟩ := Manifest.reconstruct_ok hb
      exact ⟨hroot hv hcons, hpieces⟩
    · obtain ⟨hv, hcons, -, hpieces⟩ := Manifest.reconstructFiles_ok hf
      exact ⟨hroot hv hcons, hpieces⟩

/-- The root over nothing. -/
def rootOfNothing : Hash where
  bytes :=
    [0xab, 0x13, 0xbe, 0xdf, 0x42, 0xe8, 0x4b, 0xae, 0x0f, 0x7c, 0x62, 0xc7, 0xdd, 0x6a, 0x8a,
     0xda, 0x57, 0x1e, 0x88, 0x29, 0xbe, 0xd6, 0xea, 0x55, 0x82, 0x17, 0xf0, 0x36, 0x1b, 0x5e,
     0x25, 0xd0]
  length_eq := rfl

/-- BLAKE3 on the string that is hashed for an empty list. -/
abbrev blake3OfNothing : Blake3 := .ofTable [([EMPTY_TAG], rootOfNothing)]

omit [Blake3] in
/-- A manifest that lists no chunks under the digest of `x` is rebuilt, whatever is fetched. -/
theorem reconstruct_accepts_wrong_root :
    let _ := blake3OfNothing
    let m : Manifest := ⟨digestOfX, 0, [], [], none⟩
    let fetch := fun (_ : Unit) (_ : Hash) => ((none, ()) : Option Bytes × Unit)
    (m.reconstruct fetch ()).1 = .ok [] ∧ (m.reconstructFiles fetch ()).1 = .ok [] ∧
      ¬m.Commits [] ∧ ¬m.Commits (treeBytes []) := by
  let _ := blake3OfNothing
  have hroot : merkleRoot [] ≠ digestOfX := by decide
  exact ⟨by decide, by decide, fun h => hroot h.1, fun h => hroot h.1⟩

end Np2ptp
