import Np2ptp.Store.ReadBack
import Np2ptp.Store.Whole

/-!
# The client

`download_with_progress` of `np2ptp-node/src/lib.rs`: the chunks of a manifest are had from anywhere
they can be fetched from by hash. The source is a parameter and may answer what it likes; the log of
what it was asked is kept beside the client. Each turn of the loop accounts for one chunk
(`Downloading.Accounted.turn`), so a download that succeeds has asked for what was missing and for
nothing else, once each (`download_accounts`), and one from a source that delivers succeeds
(`download_of_deliverer`), as a store that has the chunks does (`StoreSource.deliverer`).
-/

namespace Np2ptp

open Lib

/-- `NodeError`, as far as a download returns it. -/
inductive NodeError where
  | store (e : StoreError)
  | missingChunk (h : Hash)
  | badChunk (index : Nat)
  deriving DecidableEq

/-- `ChunkSource`, over what keeps its state. -/
structure ChunkSource (σ : Type) where
  fetch : σ → Hash → Except NodeError (Option Bytes) × σ

/-- `DownloadReport`. -/
structure DownloadReport where
  fetched : Nat
  deduped : Nat
  deriving DecidableEq

/-- A download from a source into a local store. -/
structure Downloading (σ : Type) where
  source : σ
  /-- The hashes that the source was asked for, in order. -/
  asked : List Hash
  disk : Disk
  store : Store
  fetched : Nat
  deduped : Nat
  /-- The calls of `on_progress` so far. -/
  progress : List (Nat × Nat)

section

variable [Blake3] {σ : Type} (src : ChunkSource σ)

/-- `StoreSource`, on the directory `d`. -/
def StoreSource (d : Disk) : ChunkSource Store where
  fetch s h :=
    match s.get d h with
    | (.ok found, s) => (.ok found, s)
    | (.error e, s) => (.error (.store e), s)

/-- The call of `on_progress` at the end of a turn. -/
def Downloading.report (c : Downloading σ) (i total : Nat) : Downloading σ :=
  { c with progress := c.progress ++ [(i + 1, total)] }

/-- A chunk is not there: it is fetched, checked and stored. -/
def Downloading.fetch (m : Manifest) (i : Nat) (h : Hash) (c : Downloading σ) :
    Except NodeError Unit × Downloading σ :=
  let (answer, t) := src.fetch c.source h
  let c := { c with source := t, asked := c.asked ++ [h] }
  match answer with
  | .error e => (.error e, c)
  | .ok none => (.error (.missingChunk h), c)
  | .ok (some bytes) =>
    if m.chunkHashOk i bytes then
      match c.store.put c.disk bytes with
      | (.error e, d, s) => (.error (.store e), { c with disk := d, store := s })
      | (.ok _, d, s) => (.ok (), { c with disk := d, store := s, fetched := c.fetched + 1 })
    else (.error (.badChunk i), c)

/-- The body of the loop. -/
def Downloading.turn (m : Manifest) (i : Nat) (cref : ChunkRef) (c : Downloading σ) :
    Except NodeError Unit × Downloading σ :=
  match c.store.has c.disk cref.hash with
  | (true, s) =>
    (.ok (), Downloading.report { c with store := s, deduped := c.deduped + 1 } i m.chunks.length)
  | (false, s) =>
    match Downloading.fetch src m i cref.hash { c with store := s } with
    | (.error e, c) => (.error e, c)
    | (.ok (), c) => (.ok (), c.report i m.chunks.length)

/-- The loop, from the chunk `i` on. -/
def Downloading.loop (m : Manifest) :
    List ChunkRef → Nat → Downloading σ → Except NodeError Unit × Downloading σ
  | [], _, c => (.ok (), c)
  | cref :: chunks, i, c =>
    match Downloading.turn src m i cref c with
    | (.error e, c) => (.error e, c)
    | (.ok (), c) => Downloading.loop m chunks (i + 1) c

/-- `download_with_progress`. -/
def download (m : Manifest) (t : σ) (d : Disk) (s : Store) :
    Except NodeError DownloadReport × Downloading σ :=
  let c : Downloading σ := ⟨t, [], d, s, 0, 0, []⟩
  if m.rootIsConsistent then
    match Downloading.loop src m m.chunks 0 c with
    | (.error e, c) => (.error e, c)
    | (.ok (), c) => (.ok ⟨c.fetched, c.deduped⟩, c)
  else (.error (.badChunk 0), c)

/-! ## A turn -/

/-- Why a chunk is not had: what the source answers, or the local store. -/
inductive Refusal (t : σ) (d : Disk) (s : Store) (i : Nat) (h : Hash) : NodeError → Prop where
  | source {t' : σ} {e : NodeError} : src.fetch t h = (.error e, t') → Refusal t d s i h e
  | missing {t' : σ} : src.fetch t h = (.ok none, t') → Refusal t d s i h (.missingChunk h)
  | bad {t' : σ} {bytes : Bytes} : src.fetch t h = (.ok (some bytes), t') → Hash.of bytes ≠ h →
    Refusal t d s i h (.badChunk i)
  | store {t' : σ} {bytes : Bytes} {e : StoreError} : src.fetch t h = (.ok (some bytes), t') →
    Hash.of bytes = h → (s.put d bytes).1 = .error e → Refusal t d s i h (.store e)

/-- No chunk that the source answers with is 4 GiB long. -/
def ChunkSource.Short (hashes : List Hash) : Prop :=
  ∀ t t' bytes, Hash.of bytes ∈ hashes → src.fetch t (Hash.of bytes) = (.ok (some bytes), t') →
    bytes.length < 2 ^ 32

/-- The calls of `on_progress` for the first `i` chunks of `total`. -/
def countsTo (i total : Nat) : List (Nat × Nat) := (List.range i).map fun k => (k + 1, total)

omit [Blake3] in
theorem countsTo_succ (i total : Nat) :
    countsTo (i + 1) total = countsTo i total ++ [(i + 1, total)] := by
  rw [countsTo, List.range_succ, List.map_append]
  rfl

/-- What the client keeps while it accounts for the first `i` chunks: nothing was lost, each of
these chunks is there, and the source was asked for what was missing only, once each. -/
structure Downloading.Keeps (d₀ : Disk) (s₀ : Store) (m : Manifest) (i : Nat)
    (c : Downloading σ) : Prop where
  whole : c.store.Whole c.disk
  kept : ∀ h, s₀.Has d₀ h → c.store.Has c.disk h
  gains : d₀.Gains c.disk c.asked
  held : ∀ h ∈ m.hashes.take i, c.store.Has c.disk h
  once : c.asked.Nodup
  fresh : ∀ h ∈ c.asked, ¬ s₀.Has d₀ h
  progress : c.progress = countsTo i m.chunks.length

/-- The first `i` chunks are accounted for. -/
structure Downloading.Accounted (d₀ : Disk) (s₀ : Store) (m : Manifest) (i : Nat)
    (c : Downloading σ) : Prop extends Downloading.Keeps d₀ s₀ m i c where
  listed : c.asked.Sublist (m.hashes.take i)
  missed : ∀ h ∈ m.hashes.take i, d₀.Lists h ∨ h ∈ c.asked
  fetched : c.fetched = c.asked.length
  total : c.fetched + c.deduped = i

/-- The chunk `i` was not had, and the source was asked for it last. -/
structure Downloading.Failed (d₀ : Disk) (s₀ : Store) (m : Manifest) (i : Nat) (h : Hash)
    (c : Downloading σ) : Prop extends Downloading.Keeps d₀ s₀ m i c where
  listed : c.asked.Sublist (m.hashes.take (i + 1))
  last : c.asked.getLast? = some h

variable {src} {d₀ : Disk} {s₀ : Store} {m : Manifest} {i : Nat} {cref : ChunkRef}
  {c : Downloading σ}

omit [Blake3] in
theorem Disk.Gains.mono {d d' : Disk} {hashes hashes' : List Hash} (h : d.Gains d' hashes)
    (hsub : hashes ⊆ hashes') : d.Gains d' hashes' := by
  obtain ⟨more, hmore, hin⟩ := h.index
  exact ⟨h.packs, ⟨more, hmore, fun e he => hsub (hin e he)⟩, h.refs, h.objects, h.sources⟩

omit [Blake3] in
/-- What a directory lists it listed before, or has gained. -/
theorem Disk.Gains.lists {d d' : Disk} {hashes : List Hash} (h : d.Gains d' hashes) {g : Hash}
    (hg : d'.Lists g) : d.Lists g ∨ g ∈ hashes := by
  rcases hg with ⟨loc, hi⟩ | ho | ⟨loc, hr⟩
  · obtain ⟨more, hmore, hin⟩ := h.index
    rcases List.mem_append.mp (hmore ▸ hi) with hi | hi
    · exact .inl (.inl ⟨loc, hi⟩)
    · exact .inr (hin _ hi)
  · exact .inl (.inr (.inl (h.objects ▸ ho)))
  · exact .inl (.inr (.inr ⟨loc, h.refs ▸ hr⟩))

omit [Blake3] in
theorem Manifest.take_hashes_succ (hc : m.chunks[i]? = some cref) :
    m.hashes.take (i + 1) = m.hashes.take i ++ [cref.hash] := by
  have hh : m.hashes[i]? = some cref.hash := by
    rw [Manifest.hashes, List.getElem?_map, hc]
    rfl
  rw [List.take_add_one, hh]
  rfl

theorem Manifest.chunkHashOk_iff (hc : m.chunks[i]? = some cref) {bytes : Bytes} :
    m.chunkHashOk i bytes = true ↔ Hash.of bytes = cref.hash := by
  rw [Manifest.chunkHashOk, hc]
  exact beq_iff_eq

/-- What fetching a chunk does when the client does not have it. -/
theorem Downloading.fetch_cases (hshort : src.Short m.hashes) (hc : m.chunks[i]? = some cref)
    (hw : c.store.Whole c.disk) :
    (∃ d s t, c.fetch src m i cref.hash =
        (.ok (), ⟨t, c.asked ++ [cref.hash], d, s, c.fetched + 1, c.deduped, c.progress⟩) ∧
      s.Whole d ∧ (∀ h, c.store.Has c.disk h → s.Has d h) ∧ c.disk.Gains d [cref.hash] ∧
      s.Has d cref.hash) ∨
    ∃ e d s t, c.fetch src m i cref.hash =
        (.error e, ⟨t, c.asked ++ [cref.hash], d, s, c.fetched, c.deduped, c.progress⟩) ∧
      s.Whole d ∧ (∀ h, c.store.Has c.disk h → s.Has d h) ∧ c.disk.Gains d [cref.hash] ∧
      Refusal src c.source c.disk c.store i cref.hash e := by
  rcases hf : src.fetch c.source cref.hash with ⟨e | _ | bytes, t⟩
  · exact .inr ⟨e, c.disk, c.store, t, by rw [Downloading.fetch, hf], hw, fun _ => id, .refl _ _,
      .source hf⟩
  · exact .inr ⟨_, c.disk, c.store, t, by rw [Downloading.fetch, hf], hw, fun _ => id, .refl _ _,
      .missing hf⟩
  · by_cases hh : Hash.of bytes = cref.hash
    · have hok := (Manifest.chunkHashOk_iff hc).mpr hh
      have hlen : bytes.length < 2 ^ 32 :=
        hshort _ _ _ (hh ▸ List.mem_map_of_mem (List.mem_of_getElem? hc)) (hh ▸ hf)
      rcases hput : c.store.put c.disk bytes with ⟨e | r, d, s⟩
      all_goals
        obtain ⟨hwhole, hkept, -⟩ := hw.put hlen hput
        have hgains := Store.put_gains hw.steady.sound hput (List.mem_singleton.mpr hh)
      · refine .inr ⟨_, d, s, t, ?_, hwhole, hkept, hgains, .store hf hh (by rw [hput])⟩
        simp only [Downloading.fetch, hf, hok, if_true, hput]
      · refine .inl ⟨d, s, t, ?_, hwhole, hkept, hgains, ?_⟩
        · simp only [Downloading.fetch, hf, hok, if_true, hput]
        · exact hh ▸ hw.has_of_put hlen hput
    · have hbad : ¬ m.chunkHashOk i bytes = true := fun h => hh ((Manifest.chunkHashOk_iff hc).mp h)
      refine .inr ⟨_, c.disk, c.store, t, ?_, hw, fun _ => id, .refl _ _, .bad hf hh⟩
      simp only [Downloading.fetch, hf, hbad, Bool.false_eq_true, if_false]

/-- One turn accounts for one chunk more, or fails for a reason. -/
theorem Downloading.Accounted.turn (hshort : src.Short m.hashes) (h : c.Accounted d₀ s₀ m i)
    (hc : m.chunks[i]? = some cref) :
    (∃ c', c.turn src m i cref = (.ok (), c') ∧ c'.Accounted d₀ s₀ m (i + 1)) ∨
    ∃ e c' s, c.turn src m i cref = (.error e, c') ∧ c'.Failed d₀ s₀ m i cref.hash ∧
      Refusal src c.source c.disk s i cref.hash e := by
  have hkept := h.whole.has cref.hash
  have hhas := h.whole.has_iff (h := cref.hash)
  have htake := Manifest.take_hashes_succ hc
  rcases hs : c.store.has c.disk cref.hash with ⟨_ | _, s⟩
  all_goals rw [hs] at hkept hhas
  · -- the chunk is not there, so it was not asked for before
    have hno : ¬ c.store.Has c.disk cref.hash := fun hn => Bool.false_ne_true (hhas.mpr hn)
    have hnew : cref.hash ∉ c.asked := fun hm => hno (h.held _ (h.listed.subset hm))
    have honce : (c.asked ++ [cref.hash]).Nodup := by
      rw [List.nodup_append]
      refine ⟨h.once, List.nodup_singleton _, fun a ha b hb hab => hnew ?_⟩
      rw [← List.mem_singleton.mp hb, ← hab]
      exact ha
    have hfresh : ∀ g ∈ c.asked ++ [cref.hash], ¬ s₀.Has d₀ g := by
      intro g hg
      rcases List.mem_append.mp hg with hg | hg
      · exact h.fresh g hg
      · rw [List.mem_singleton.mp hg]
        exact fun hn => hno (h.kept _ hn)
    have hgrown {d'} (hg : c.disk.Gains d' [cref.hash]) : d₀.Gains d' (c.asked ++ [cref.hash]) :=
      (h.gains.mono (List.subset_append_left _ _)).trans (hg.mono (List.subset_append_right _ _))
    have hlisted : (c.asked ++ [cref.hash]).Sublist (m.hashes.take (i + 1)) := by
      rw [htake]
      exact h.listed.append (List.Sublist.refl _)
    rcases Downloading.fetch_cases (c := { c with store := s }) hshort hc hkept.whole with
      ⟨d', s', t', he, hwhole, hmore, hgains, hgot⟩ |
      ⟨e, d', s', t', he, hwhole, hmore, hgains, hwhy⟩
    · refine .inl ⟨_, by rw [Downloading.turn, hs]; dsimp only; rw [he], ?_⟩
      refine
        { whole := hwhole
          kept := fun g hg => hmore g (hkept.has g (h.kept g hg))
          gains := hgrown hgains
          held := fun g hg => ?_
          once := honce
          fresh := hfresh
          progress := ?_
          listed := hlisted
          missed := fun g hg => ?_
          fetched := ?_
          total := ?_ }
      · rcases List.mem_append.mp (htake ▸ hg) with hg | hg
        · exact hmore g (hkept.has g (h.held g hg))
        · rw [List.mem_singleton.mp hg]
          exact hgot
      · show c.progress ++ _ = _
        rw [h.progress, countsTo_succ]
      · rcases List.mem_append.mp (htake ▸ hg) with hg | hg
        · exact (h.missed g hg).imp_right (List.mem_append_left _)
        · exact .inr (List.mem_append_right _ hg)
      · show c.fetched + 1 = (c.asked ++ _).length
        rw [h.fetched, List.length_append, List.length_singleton]
      · have htotal := h.total
        show c.fetched + 1 + c.deduped = i + 1
        omega
    · refine .inr ⟨e, _, s, by rw [Downloading.turn, hs]; dsimp only; rw [he], ?_, hwhy⟩
      exact
        { whole := hwhole
          kept := fun g hg => hmore g (hkept.has g (h.kept g hg))
          gains := hgrown hgains
          held := fun g hg => hmore g (hkept.has g (h.held g hg))
          once := honce
          fresh := hfresh
          progress := h.progress
          listed := hlisted
          last := List.getLast?_concat }
  · have hheld := hhas.mp rfl
    refine .inl ⟨_, by rw [Downloading.turn, hs], ?_⟩
    refine
      { whole := hkept.whole
        kept := fun g hg => hkept.has g (h.kept g hg)
        gains := h.gains
        held := fun g hg => hkept.has g ?_
        once := h.once
        fresh := h.fresh
        progress := ?_
        listed := h.listed.trans ?_
        missed := fun g hg => ?_
        fetched := h.fetched
        total := ?_ }
    · rcases List.mem_append.mp (htake ▸ hg) with hg | hg
      · exact h.held g hg
      · rw [List.mem_singleton.mp hg]
        exact hheld
    · show c.progress ++ _ = _
      rw [h.progress, countsTo_succ]
    · rw [htake]
      exact List.sublist_append_left _ _
    · rcases List.mem_append.mp (htake ▸ hg) with hg | hg
      · exact h.missed g hg
      · rw [List.mem_singleton.mp hg]
        exact h.gains.lists (h.whole.noted.lists hheld)
    · have htotal := h.total
      show c.fetched + (c.deduped + 1) = i + 1
      omega

/-- The loop, from the chunk `i` on. -/
theorem Downloading.Accounted.loop (hshort : src.Short m.hashes) :
    ∀ {chunks : List ChunkRef} {i : Nat} {c : Downloading σ}, c.Accounted d₀ s₀ m i →
    i ≤ m.chunks.length → m.chunks.drop i = chunks →
    (∃ c', Downloading.loop src m chunks i c = (.ok (), c') ∧
      c'.Accounted d₀ s₀ m m.chunks.length) ∨
    ∃ k cref e c', Downloading.loop src m chunks i c = (.error e, c') ∧ m.chunks[k]? = some cref ∧
      c'.Failed d₀ s₀ m k cref.hash ∧ ∃ t d s, Refusal src t d s k cref.hash e
  | [], i, c, h, hle, hdrop => by
    obtain rfl := Nat.le_antisymm hle (List.drop_eq_nil_iff.mp hdrop)
    exact .inl ⟨c, rfl, h⟩
  | cref :: chunks, i, c, h, hle, hdrop => by
    have hc : m.chunks[i]? = some cref := by
      rw [← List.head?_drop, hdrop]
      rfl
    have hrest : m.chunks.drop (i + 1) = chunks := by
      rw [← List.tail_drop, hdrop]
      rfl
    rw [Downloading.loop]
    rcases h.turn hshort hc with ⟨c', he, hnext⟩ | ⟨e, c', s, he, hfailed, hwhy⟩
    · rw [he]
      exact hnext.loop hshort (List.getElem?_eq_some_iff.mp hc).1 hrest
    · rw [he]
      exact .inr ⟨i, cref, e, c', rfl, hc, hfailed, _, _, s, hwhy⟩

theorem Downloading.Accounted.start (hw : s₀.Whole d₀) (m : Manifest) (t : σ) :
    Downloading.Accounted d₀ s₀ m 0 ⟨t, [], d₀, s₀, 0, 0, []⟩ where
  whole := hw
  kept _ := id
  gains := .refl _ _
  held _ hg := nomatch hg
  once := List.nodup_nil
  fresh _ hg := nomatch hg
  progress := rfl
  listed := List.nil_sublist _
  missed _ hg := nomatch hg
  fetched := rfl
  total := rfl

/-- A download that succeeds has accounted for all chunks. -/
theorem download_ok (hw : s₀.Whole d₀) (hshort : src.Short m.hashes) {t : σ}
    {report : DownloadReport} (h : download src m t d₀ s₀ = (.ok report, c)) :
    m.rootIsConsistent = true ∧ c.Accounted d₀ s₀ m m.chunks.length ∧
      report = ⟨c.fetched, c.deduped⟩ := by
  unfold download at h
  dsimp only at h
  split at h
  · next hroot =>
    rcases Downloading.Accounted.loop hshort (Downloading.Accounted.start hw m t) (Nat.zero_le _)
      List.drop_zero with ⟨c', he, hall⟩ | ⟨k, cref, e, c', he, -⟩
    · rw [he] at h
      cases h
      exact ⟨hroot, hall, rfl⟩
    · rw [he] at h
      cases h
  · cases h

/-- All chunks are accounted for. -/
theorem Downloading.Keeps.held_all (h : c.Keeps d₀ s₀ m m.chunks.length) :
    ∀ g ∈ m.hashes, c.store.Has c.disk g := by
  have hheld := h.held
  rwa [Manifest.hashes, List.take_of_length_le (List.length_map _).le] at hheld

/-- A source that keeps delivering some pieces. -/
def Deliverer (src : ChunkSource σ) (I : σ → Prop) (pieces : List Bytes) : Prop :=
  ∀ t, I t → ∀ p ∈ pieces, ∃ t', src.fetch t (Hash.of p) = (.ok (some p), t') ∧ I t'

omit [Blake3] in
theorem Disk.HasRoom.mono {d : Disk} {n n' : Nat} (h : d.HasRoom n') (hle : n ≤ n') :
    d.HasRoom n := fun id => (Nat.add_le_add_left hle _).trans (h id)

/-- A piece that is delivered and fits is stored. -/
theorem Downloading.fetch_of_deliverer {I : σ → Prop} {p : Bytes} {n : Nat}
    (hsrc : Deliverer src I [p]) (hI : I c.source) (hc : m.chunks[i]? = some cref)
    (hp : cref.hash = Hash.of p) (hroom : c.disk.HasRoom (p.length + n)) :
    ∃ c', c.fetch src m i cref.hash = (.ok (), c') ∧ I c'.source ∧ c'.disk.HasRoom n := by
  obtain ⟨t', hf, hI'⟩ := hsrc c.source hI p List.mem_cons_self
  obtain ⟨⟨r, hr⟩, hless⟩ := Store.put_of_room hroom (Nat.le_add_right _ _) c.store
  have hok := (Manifest.chunkHashOk_iff hc).mpr hp.symm
  rcases hput : c.store.put c.disk p with ⟨e | r', d', s'⟩
  · rw [hput] at hr
    cases hr
  · rw [hput, Nat.add_sub_cancel_left] at hless
    have he : c.fetch src m i cref.hash = (.ok (), ⟨t', c.asked ++ [cref.hash], d', s',
        c.fetched + 1, c.deduped, c.progress⟩) := by
      simp only [Downloading.fetch, hp, hf, hok, if_true, hput]
    exact ⟨_, he, hI', hless⟩

/-- A turn succeeds where the source delivers and the piece fits. -/
theorem Downloading.turn_of_deliverer {I : σ → Prop} {p : Bytes} {n : Nat}
    (hsrc : Deliverer src I [p]) (hI : I c.source) (hc : m.chunks[i]? = some cref)
    (hp : cref.hash = Hash.of p) (hroom : c.disk.HasRoom (p.length + n)) :
    ∃ c', c.turn src m i cref = (.ok (), c') ∧ I c'.source ∧ c'.disk.HasRoom n := by
  rcases hs : c.store.has c.disk cref.hash with ⟨_ | _, s⟩
  · obtain ⟨c', he, hI', hless⟩ :=
      Downloading.fetch_of_deliverer (c := { c with store := s }) hsrc hI hc hp hroom
    refine ⟨c'.report i m.chunks.length, ?_, hI', hless⟩
    rw [Downloading.turn, hs]
    dsimp only
    rw [he]
  · refine ⟨Downloading.report { c with store := s, deduped := c.deduped + 1 } i m.chunks.length,
      ?_, hI, hroom.mono (Nat.le_add_left _ _)⟩
    rw [Downloading.turn, hs]

/-- The loop succeeds where the source delivers and the pieces fit. -/
theorem Downloading.loop_of_deliverer {I : σ → Prop} : ∀ {chunks : List ChunkRef}
    {pieces : List Bytes} {i : Nat} {c : Downloading σ}, Deliverer src I pieces → I c.source →
    m.chunks.drop i = chunks → chunks.map (·.hash) = pieces.map Hash.of →
    c.disk.HasRoom pieces.flatten.length →
    ∃ c', Downloading.loop src m chunks i c = (.ok (), c') ∧ I c'.source
  | [], _, _, c, _, hI, _, _, _ => ⟨c, rfl, hI⟩
  | cref :: chunks, [], _, _, _, _, _, hp, _ => by cases hp
  | cref :: chunks, p :: pieces, i, c, hsrc, hI, hdrop, hp, hroom => by
    obtain ⟨hhead, htail⟩ := List.cons.inj hp
    have hc : m.chunks[i]? = some cref := by
      rw [← List.head?_drop, hdrop]
      rfl
    have hrest : m.chunks.drop (i + 1) = chunks := by
      rw [← List.tail_drop, hdrop]
      rfl
    rw [List.flatten_cons, List.length_append] at hroom
    obtain ⟨c', he, hI', hless⟩ := Downloading.turn_of_deliverer
      (fun t ht q hq => hsrc t ht q (List.mem_singleton.mp hq ▸ List.mem_cons_self)) hI hc hhead
      hroom
    rw [Downloading.loop, he]
    exact Downloading.loop_of_deliverer
      (fun t ht q hq => hsrc t ht q (List.mem_cons_of_mem _ hq)) hI' hrest htail hless

/-- What a store answers for the pieces that it serves. -/
theorem StoreSource.deliverer {d : Disk} {pieces : List Bytes} (hd : d.Steady)
    (hnc : ∀ p ∈ pieces, d.NoCollision p) (hlen : ∀ p ∈ pieces, p.length < 2 ^ 32) :
    Deliverer (StoreSource d) (fun t => t.Sound d ∧ ∀ p ∈ pieces, t.Serves d (Hash.of p))
      pieces := by
  intro t ⟨ht, hserves⟩ p hp
  have hget := (Store.get_ok_iff hd.sound hd.objects ht (hnc p hp) fun _ => hlen p hp).mpr
    (hserves p hp)
  rcases hr : t.get d (Hash.of p) with ⟨r, t'⟩
  rw [hr] at hget
  obtain rfl : r = .ok (some p) := hget
  refine ⟨t', by simp only [StoreSource, hr], ?_⟩
  rcases Store.get_handle hd.sound ht (Hash.of p) with he | he
  · rw [hr] at he
    rw [show t' = t from he]
    exact ⟨ht, hserves⟩
  · rw [hr] at he
    rw [show t' = t.indexRead d from he]
    exact ⟨ht.indexRead hd.sound, fun q hq => (hserves q hq).indexRead ht⟩

/-- A store that holds no other string with the digest of a piece answers with no long one. -/
theorem StoreSource.short {d : Disk} {hashes : List Hash} {pieces : List Bytes}
    (hp : pieces.map Hash.of = hashes) (hnc : ∀ p ∈ pieces, d.NoCollision p)
    (hlen : ∀ p ∈ pieces, p.length < 2 ^ 32) : (StoreSource d).Short hashes := by
  intro t t' bytes hmem hf
  rw [← hp] at hmem
  obtain ⟨p, hpmem, hh⟩ := List.mem_map.mp hmem
  have hget : (t.get d (Hash.of bytes)).1 = .ok (some bytes) := by
    simp only [StoreSource] at hf
    rcases hg : t.get d (Hash.of bytes) with ⟨e | found, s⟩
    · rw [hg] at hf
      cases hf
    · rw [hg] at hf
      cases hf
      rfl
  rw [hnc p hpmem bytes (Store.stores_of_get hget) hh.symm]
  exact hlen p hpmem

/-- A download from a store that has the chunks succeeds if they fit. -/
theorem download_of_deliverer {I : σ → Prop} {pieces : List Bytes} {t : σ} {d : Disk} {s : Store}
    (hroot : m.rootIsConsistent = true) (hp : pieces.map Hash.of = m.hashes)
    (hsrc : Deliverer src I pieces) (hI : I t) (hroom : d.HasRoom pieces.flatten.length) :
    ∃ report c, download src m t d s = (.ok report, c) := by
  obtain ⟨c, he, -⟩ := Downloading.loop_of_deliverer (c := ⟨t, [], d, s, 0, 0, []⟩) hsrc hI
    List.drop_zero hp.symm hroom
  exact ⟨⟨c.fetched, c.deduped⟩, c, by rw [download, if_pos hroot, he]⟩

end

/-- A source that answers with the byte `x` whatever it is asked. -/
def sourceOfX : ChunkSource Unit := ⟨fun _ _ => (.ok (some [120]), ())⟩

/-- A manifest that lists the byte `x` twice. -/
def twiceX : Manifest := let _ := blake3OfX
  ⟨merkleRoot [digestOfX, digestOfX], 2, [⟨digestOfX, 0, 1⟩, ⟨digestOfX, 1, 1⟩], [], none⟩

end Np2ptp
