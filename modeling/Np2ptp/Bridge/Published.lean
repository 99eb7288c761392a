import Np2ptp.Bridge.ResolveOrConvert
import Np2ptp.Net.Reseeding
import Np2ptp.Store.DiskIngest

/-!
# One conversion is enough

The nodes that want a torrent, after one of them has converted it. That node provides the manifest
of its conversion (`convertLocal_publishes`) and has put the mapping of the infohash; another one
that looks the mapping up and finds the first among the providers is bound to get the torrent from
the network, with nothing converted or read from its own data directory
(`converted_torrent_resolves`). The other providers may do what they like, short of a manifest that
cannot be read back, which ends the call.
-/

namespace Np2ptp

open Lib

section

variable [Blake3] [Ed25519] [RaptorQ] [FastCDC] [Sha1] {Peer : Type} [DecidableEq Peer]

/-! ## The conversion -/

/-- What a conversion found in the data directory. -/
structure Converted (info : TorrentMeta) (m : Manifest) (files : List (Text × Bytes)) : Prop where
  manifest : m = @Manifest.fromFiles _ FastCDC.streaming files (some info.name)
  pinned : Pinned info.pieceLength.toNat info.pieceHashes (treeBytes files)
  size : (treeBytes files).length < 2 ^ 64

omit [Ed25519] [RaptorQ] [DecidableEq Peer] in
theorem converted_of_convertLocal {d : Disk} {s : Store} {info : TorrentMeta} {dataDir : Bytes}
    {noCopy : Bool} {m : Manifest}
    (hsize : ∀ files, d.Copies (info.onDisk dataDir) files → (treeBytes files).length < 2 ^ 64)
    (h : (convertLocal d s info dataDir noCopy).1 = .ok m) :
    ∃ files, d.Copies (info.onDisk dataDir) files ∧ Converted info m files := by
  obtain ⟨hverify, hingest⟩ := convertLocal_ok.mp h
  obtain ⟨contents, hfiles, hpinned⟩ := verifyPiecesStreaming_iff.mp hverify
  obtain ⟨files, hcopies, rfl⟩ := Store.ingestTreeFiles_ok hingest
  obtain rfl := hfiles.unique hcopies.2
  exact ⟨files, hcopies, rfl, hpinned, hsize files hcopies⟩

variable {info : TorrentMeta} {m : Manifest} {files : List (Text × Bytes)}

omit [Ed25519] [RaptorQ] [DecidableEq Peer] in
theorem Converted.hashes_eq (h : Converted info m files) :
    m.hashes = (streamedPieces files).map Hash.of := by
  rw [h.manifest]
  exact @Manifest.hashes_fromFiles _ FastCDC.streaming files (some info.name)

omit [Ed25519] [RaptorQ] [DecidableEq Peer] in
theorem Converted.vetted (h : Converted info m files) : m.Vetted m.root := by
  rw [h.manifest]
  exact ⟨rfl, beq_self_eq_true _,
    @Manifest.validate_fromFiles _ FastCDC.streaming files (some info.name) h.size⟩

omit [Ed25519] [RaptorQ] [DecidableEq Peer] in
/-- A handle that has the chunks of a conversion exports them, and they pass the piece check. -/
theorem Converted.export (h : Converted info m files) {d : Disk} {s : Store} (hw : s.Whole d)
    (hhas : ∀ g ∈ m.hashes, s.Has d g)
    (hnc : ∀ p, Hash.of p ∈ m.hashes → d.NoCollision p) : ∃ s', s.exportTree d m = (.ok files, s') ∧
      verifyPieces files info.pieceLength.toNat info.pieceHashes = true := by
  have hlisted : ∀ p ∈ streamedPieces files, Hash.of p ∈ m.hashes := by
    intro p hp
    rw [h.hashes_eq]
    exact List.mem_map_of_mem hp
  have hexport : (s.exportTree d m).1 = .ok files := by
    rw [h.manifest]
    exact @exportTree_of_has _ d s FastCDC.streaming files (some info.name) hw.steady hw.sound
      hw.noted h.size (fun p hp => hhas _ (hlisted p hp)) fun p hp => hnc p (hlisted p hp)
  exact ⟨_, Prod.ext hexport rfl, verifyPieces_iff.mpr h.pinned⟩

omit [Ed25519] [RaptorQ] [DecidableEq Peer] in
/-- A conversion that copies the files leaves the store whole for every handle, and the chunks of its
manifest with its own. -/
theorem convertLocal_copies {d d' : Disk} {s s' : Store} {dataDir : Bytes} (hw : s.Whole d)
    (hsize : ∀ files, d.Copies (info.onDisk dataDir) files → (treeBytes files).length < 2 ^ 64)
    (h : convertLocal d s info dataDir false = (.ok m, d', s')) :
    Store.Copied (d, s) (d', s') ∧ ∀ g ∈ m.hashes, s'.Has d' g := by
  have hok := congrArg Prod.fst h
  obtain ⟨files, hcopies, hconverted⟩ := converted_of_convertLocal hsize hok
  obtain ⟨hverify, hingest⟩ := convertLocal_ok.mp hok
  have hcopied := Store.Copied.ingestTreeFiles hw (info.onDisk dataDir) (some info.name)
  have hhas := ingestTreeFiles_has hw.steady hw.sound hw.noted (nofun : false = true → _) hcopies
    hingest
  have hafter : (s.ingestTreeFiles d (info.onDisk dataDir) (some info.name) false).2 =
      (d', s') := by
    simp only [convertLocal, hverify] at h
    rcases hr : s.ingestTreeFiles d (info.onDisk dataDir) (some info.name) false with
      ⟨_ | m', d₁, s₁⟩
    · rw [hr] at h
      cases h
    · rw [hr] at h
      cases h
      rfl
  rw [hafter] at hcopied hhas
  refine ⟨hcopied, fun g hg => ?_⟩
  rw [hconverted.hashes_eq] at hg
  obtain ⟨p, hp, rfl⟩ := List.mem_map.mp hg
  exact hhas p hp

/-- What is converted can be provided. Another handle on the store of the converter, that of its
node, which knows the references that were there before, finds the chunks that were copied: the
node is tended when it provides the manifest, and goes on to provide it. -/
theorem convertLocal_publishes {d d' : Disk} {s s' : Store} {dataDir : Bytes} (hw : s.Whole d)
    (hsize : ∀ files, d.Copies (info.onDisk dataDir) files → (treeBytes files).length < 2 ^ 64)
    (hrep : m.Representable) (h : convertLocal d s info dataDir false = (.ok m, d', s'))
    {e : EventLoop Peer} (he : e.Tended) (hdisk : e.disk = d)
    (hrefs : ∀ r ∈ refEntries d.refsTsv, r.1 ∈ e.store.refs) :
    ∃ e₁ e₂, e.step (.storage d' e.store) = some e₁ ∧
      e₁.step (.provide m.root m.toNptp) = some e₂ ∧ e₂.Tended ∧ e₂.Provides m.root m := by
  subst hdisk
  obtain ⟨hcopied, hown⟩ := convertLocal_copies hw hsize h
  obtain ⟨hwhole, hkept⟩ := hcopied.others e.store he.whole
  have hleft : e.Tends (.storage d' e.store) := by
    refine ⟨hwhole, fun g hg => hkept g ?_⟩
    obtain ⟨root, bytes, m', hl, hparse, hmem⟩ := hg
    exact (he.provides ⟨bytes, hl, hparse⟩).2 g hmem
  have htended : EventLoop.Tended { e with disk := d' } :=
    EventLoop.step_tended he hleft rfl
  have hparse := Manifest.fromNptp_toNptp hrep []
  rw [List.append_nil] at hparse
  have hbacks : EventLoop.Tends { e with disk := d' } (.provide m.root m.toNptp) := by
    obtain ⟨files, -, hconverted⟩ := converted_of_convertLocal hsize (congrArg Prod.fst h)
    refine ⟨m, hparse, hconverted.vetted, fun g hg => ?_⟩
    refine (hown g hg).of_refs hcopied.whole.noted fun r hr => hrefs r ?_
    exact hcopied.refs ▸ hr
  refine ⟨_, _, rfl, rfl, EventLoop.step_tended htended hbacks rfl, m.toNptp, ?_, hparse⟩
  exact Finmap.lookup_insert _

/-! ## Resolving what is published -/

namespace Resolve

/-- The node `q` has published the manifest and serves `p`: the mapping leads to its content id, `q`
is among the providers, and what it answers is what a node answers that provides the manifest and
does not choke. Chunks can be written, and other manifests can be read back. -/
def Published (q p : Peer) (m : Manifest) : Resolve Peer → Event Peer → Prop
  | _, .record value => value = .ok (some m.root.bytes)
  | _, .found r => ∃ providers, r = .ok providers ∧ q ∈ providers
  | .downloading root provider _ dl, .answered a =>
    (∀ request, Client.asked ⟨root, [provider], dl⟩ a = some (q, request) →
      ∃ e : EventLoop Peer, e.Tended ∧ e.Provides m.root m ∧ e.chokes p = false ∧
        a.answer = .ok (e.serve p request).1) ∧
    ∀ bytes, dl.brought a = some bytes → bytes.length < 2 ^ 32 ∧
      ∃ r, (dl.store.put dl.disk bytes).1 = .ok r
  | .checking d s _ _ m', .check => m' ≠ m → Readable d s m'
  | _, _ => True

/-- What a call keeps until it returns: `q` is the provider at hand and is bound to deliver, or it
is still to come. -/
def Hopes (q : Peer) (m : Manifest) : Resolve Peer → Prop
  | .mapping d s => s.Whole d
  | .finding d s root => s.Whole d ∧ root = m.root
  | .downloading root p rest dl => root = m.root ∧ Client.Safe ⟨root, [p], dl⟩ ∧ dl.result = none ∧
      (p = q ∧ dl.phase.Hopeful [p] q (· ∈ m.hashes) ∧ dl.phase.Follows q m ∨ q ∈ rest)
  | .checking d s root rest m' => root = m.root ∧ s.Whole d ∧ m'.Vetted root ∧
      (∀ g ∈ m'.hashes, s.Has d g) ∧ (m' = m ∨ q ∈ rest)
  | .returned .. => False

/-- The store has a string that differs from a chunk of the manifest and has its digest. -/
def Collides (m : Manifest) (st : Resolve Peer) : Prop :=
  ∃ p, Hash.of p ∈ m.hashes ∧ ¬ st.disk.NoCollision p

/-- The call has returned a manifest of the content id, and the content has the piece hashes. -/
def Bridged (info : TorrentMeta) (m : Manifest) (st : Resolve Peer) : Prop :=
  ∃ m', st.result = some (.ok (some m')) ∧ m'.root = m.root ∧ ∃ chunks, Checked info m' chunks

variable {q p : Peer} {st st' : Resolve Peer} {e : Event Peer}

omit [Ed25519] [RaptorQ] [FastCDC] [Sha1] [DecidableEq Peer] in
theorem Hopes.waits (h : st.Hopes q m) : st.Waits := by
  cases st with
  | downloading root p rest dl => exact ⟨h.2.1.fits, h.2.2.1⟩
  | _ => trivial

omit [Ed25519] [RaptorQ] [FastCDC] [Sha1] [DecidableEq Peer] in
theorem Hopes.result_eq (h : st.Hopes q m) : st.result = none := by
  cases st with
  | returned d s r => exact absurd h id
  | _ => rfl

omit [Ed25519] [RaptorQ] [FastCDC] [Sha1] [DecidableEq Peer] in
/-- The loop goes on with a provider of the content id, and `q` is among those left. -/
theorem hopes_next {d : Disk} {s : Store} (hw : s.Whole d) {rest : List Peer} (hq : q ∈ rest) :
    (next m.root d s rest).Hopes q m := by
  cases rest with
  | nil => cases hq
  | cons p rest =>
    refine ⟨rfl, Client.safe_start hw m.root [p], rfl, ?_⟩
    rcases List.mem_cons.mp hq with rfl | hq
    · exact .inl ⟨rfl, List.mem_singleton_self _, rfl⟩
    · exact .inr hq

omit [Blake3] [Ed25519] [RaptorQ] [FastCDC] [Sha1] [DecidableEq Peer] in
theorem getMapping_root (root : Hash) : getMapping (.ok (some root.bytes)) = .ok (some root) :=
  dif_pos root.length_eq

omit [FastCDC] [Sha1] in
/-- One answer to the download from a provider: from `q` it is the hoped-for one. -/
theorem Hopes.answered {root : Hash} {rest : List Peer} {dl dl' : Download Peer} {a : Answered}
    {provider : Peer} (hvetted : m.Vetted m.root)
    (h : Hopes q m (.downloading root provider rest dl))
    (hok : Published q p m (.downloading root provider rest dl) (.answered a))
    (hs : dl.step root [provider] a = some dl') :
    root = m.root ∧ Client.Safe ⟨root, [provider], dl'⟩ ∧
      (provider = q ∧ dl'.phase.Follows q m ∧
          (dl'.result = some (.ok m) ∨ dl'.phase.Hopeful [provider] q (· ∈ m.hashes)) ∨
        q ∈ rest) := by
  obtain ⟨rfl, hsafe, hr, hq⟩ := h
  have hsafe' : Client.Safe ⟨m.root, [provider], dl'⟩ :=
    Client.step_safe hsafe (fun bytes hb => (hok.2 bytes hb).1) hs
  refine ⟨rfl, hsafe', hq.imp_left ?_⟩
  rintro ⟨rfl, hhopeful, hfollows⟩
  have hhonest : dl.HonestStep [provider] provider m (· ∈ m.hashes) a := by
    refine Client.honest (c := ⟨m.root, [provider], dl⟩) (fun request hasked => ?_)
      fun bytes hb => (hok.2 bytes hb).2
    obtain ⟨e, htended, hprovides, hchoke, ha⟩ := hok.1 request hasked
    exact ⟨_, ha, htended.fulfils hprovides hchoke request⟩
  have hfollows' := Download.step_follows hvetted hfollows hhonest hs
  refine ⟨rfl, hfollows', ?_⟩
  rcases Download.step_hopeful (List.mem_singleton_self provider) hvetted (fun _ hg => hg)
    hsafe.fits hhopeful hhonest hs with hwon | hhope
  · exact .inl (hwon.result_eq hfollows')
  · exact .inr hhope

/-- One step: the call has the torrent, or keeps its hopes. -/
theorem Hopes.step (hc : Converted info m files) (h : st.Hopes q m) (hno : ¬ st.Collides m)
    (hok : st.Published q p m e) (hstep : st.step (some info) e = some st') :
    st'.Bridged info m ∨ st'.Hopes q m := by
  cases steps_of_step hstep with
  | unlooked hv =>
    obtain rfl := hok
    rw [getMapping_root] at hv
    cases hv
  | unmapped hv =>
    obtain rfl := hok
    rw [getMapping_root] at hv
    cases hv
  | mapped hv =>
    obtain rfl := hok
    rw [getMapping_root] at hv
    cases hv
    exact .inr ⟨h, rfl⟩
  | unfound =>
    obtain ⟨providers, hr, -⟩ := hok
    cases hr
  | found =>
    obtain ⟨providers, hr, hmem⟩ := hok
    cases hr
    obtain ⟨hw, rfl⟩ := h
    exact .inr (hopes_next hw hmem)
  | answered hs hr =>
    obtain ⟨hroot, hsafe, hq⟩ := h.answered hc.vetted hok hs
    refine .inr ⟨hroot, hsafe, hr, hq.imp_left ?_⟩
    rintro ⟨rfl, hfollows, hdone | hhope⟩
    · rw [hr] at hdone
      cases hdone
    · exact ⟨rfl, hhope, hfollows⟩
  | failed hs hr =>
    obtain ⟨rfl, hsafe, ⟨rfl, -, hdone | hhope⟩ | hq⟩ := h.answered hc.vetted hok hs
    · rw [hr] at hdone
      cases hdone
    · obtain ⟨receipts, hp⟩ := Download.phase_of_result hr
      rw [hp] at hhope
      obtain ⟨m', hm'⟩ := hhope
      cases hm'
    · exact .inr (hopes_next hsafe.whole hq)
  | unverified hs hr hv => cases hv
  | @downloaded root provider rest dl dl' a m' info' hs hr hv =>
    obtain ⟨hroot, hsafe, hq⟩ := h.answered hc.vetted hok hs
    obtain ⟨hvetted, -, hhas⟩ := hsafe.done hr
    refine .inr ⟨hroot, hsafe.whole, hvetted, hhas, hq.imp_left ?_⟩
    rintro ⟨rfl, hfollows, -⟩
    obtain ⟨receipts, hp⟩ := Download.phase_of_result hr
    rw [hp] at hfollows
    exact hfollows
  | @unexported d s root rest m' info' err s' hv he =>
    obtain ⟨rfl, hw, hvetted, hhas, hq⟩ := h
    by_cases hm : m' = m
    · subst hm
      obtain ⟨t, hexport, -⟩ := hc.export hw hhas fun p hp => by_contra fun hn => hno ⟨p, hp, hn⟩
      rw [he] at hexport
      cases hexport
    · have hself : m'.Vetted m'.root := hvetted.1 ▸ hvetted
      obtain ⟨out, t, hexport⟩ := (exportTree_iff_readable hself).mpr (hok hm)
      rw [he] at hexport
      cases hexport
  | @verified d s root rest m' info' out s' hv he hpass =>
    cases hv
    obtain ⟨rfl, hw, hvetted, hhas, hq⟩ := h
    obtain ⟨-, chunks, hchunks, hbytes⟩ := Store.exportTree_content (congrArg Prod.fst he)
    have hpinned := verifyPieces_iff.mp hpass
    rw [hbytes] at hpinned
    exact .inl ⟨m', rfl, hvetted.1, chunks, hchunks, hpinned⟩
  | @refuted d s root rest m' info' out s' hv he hfails =>
    cases hv
    obtain ⟨rfl, hw, hvetted, hhas, hq⟩ := h
    have hkept := hw.exportTree m'
    rw [he] at hkept
    refine .inr (hopes_next hkept.whole (hq.resolve_left ?_))
    rintro rfl
    obtain ⟨t, hexport, hpass⟩ := hc.export hw hhas fun p hp =>
      by_contra fun hn => hno ⟨p, hp, hn⟩
    rw [he] at hexport
    cases hexport
    rw [hpass] at hfails
    cases hfails

end Resolve

namespace ResolveOrConvert

/-- While the call resolves, it finds the torrent published. -/
def Published (q p : Peer) (m : Manifest) (st : ResolveOrConvert Peer) (e : Event Peer) : Prop :=
  ∀ rst re, st = .resolving rst → e = .resolve re → rst.Published q p m re

/-- The call has returned the torrent from the network; or a string that it has stored differs from
a chunk and has its digest. -/
def Bridged (info : TorrentMeta) (m : Manifest) (st : ResolveOrConvert Peer) : Prop :=
  (∃ o, st.result = some (.ok o) ∧ o.infohash = info.infohash ∧ o.converted = false ∧
    o.manifest.root = m.root ∧ ∃ chunks, Resolve.Checked info o.manifest chunks) ∨
    ∃ rst, st = .resolving rst ∧ rst.Collides m

omit [Ed25519] [RaptorQ] [FastCDC] [Sha1] [DecidableEq Peer] in
/-- A call that resolves with hope resolves on. -/
theorem resolved_of_hopes {q : Peer} {rst : Resolve Peer} (h : rst.Hopes q m) :
    resolved info rst = .resolving rst := by
  cases rst with
  | returned d s r => exact absurd h id
  | _ => rfl

omit [Ed25519] [RaptorQ] [FastCDC] [DecidableEq Peer] in
/-- A call that has resolved the torrent returns it. -/
theorem bridged_resolved {rst : Resolve Peer} (h : rst.Bridged info m) :
    (resolved info rst).Bridged info m := by
  obtain ⟨m', hr, hroot, hchecked⟩ := h
  obtain ⟨d, s, rfl⟩ := Resolve.eq_of_result hr
  exact .inl ⟨_, rfl, rfl, rfl, hroot, hchecked⟩

/-- One conversion is enough. A node has converted a torrent by `convert_local`, with the files
copied, and publishes it: its own handle on the store, if it knows all references from before, has
the chunks then, and it provides the manifest. Any other node with a whole store that calls
`resolve_or_convert_local` for the torrent, with whatever data directory of its own, where the
lookups lead to the first node and that one answers, is bound to get the torrent from the network: a
manifest of the same content id, whose content has the piece hashes, and nothing is converted. The
other providers, before and after it, are free, except that a manifest which cannot be read back
ends the call. -/
theorem converted_torrent_resolves {d₀ d₁ : Disk} {s₀ s₁ : Store} {dataDir₀ : Bytes}
    (hw : s₀.Whole d₀)
    (hsize : ∀ files, d₀.Copies (info.onDisk dataDir₀) files → (treeBytes files).length < 2 ^ 64)
    (hrep : m.Representable) (h : convertLocal d₀ s₀ info dataDir₀ false = (.ok m, d₁, s₁)) :
    (∀ e : EventLoop Peer, e.Tended → e.disk = d₀ →
      (∀ r ∈ refEntries d₀.refsTsv, r.1 ∈ e.store.refs) →
      ∃ e₁ e₂, e.step (.storage d₁ e.store) = some e₁ ∧
        e₁.step (.provide m.root m.toNptp) = some e₂ ∧ e₂.Tended ∧ e₂.Provides m.root m) ∧
    ∀ (q p : Peer) (dataDir : Bytes) (noCopy : Bool) (d : Disk) (s : Store), s.Whole d →
      Inevitably (step info dataDir noCopy) (Published q p m) (Bridged info m)
        (.resolving (.mapping d s)) := by
  refine ⟨fun e he hdisk => convertLocal_publishes hw hsize hrep h he hdisk, ?_⟩
  intro q p dataDir noCopy d s hw
  obtain ⟨files, -, hc⟩ := converted_of_convertLocal hsize (congrArg Prod.fst h)
  by_cases hstart : (Resolve.mapping d s : Resolve Peer).Collides m
  · exact .reached (.inr ⟨_, rfl, hstart⟩)
  refine inevitably_of_measure (I := fun st => ∃ rst, st = .resolving rst ∧ rst.Hopes q m ∧
    ¬ rst.Collides m) left ?_ ?_ ⟨_, rfl, hw, hstart⟩
  · rintro _ ⟨rst, rfl, hhopes, -⟩ -
    obtain ⟨e, rst', hstep⟩ := Resolve.enabled info hhopes.waits hhopes.result_eq
    exact ⟨.resolve e, _, by rw [step, hstep]; rfl⟩
  · rintro _ e st' ⟨rst, rfl, hhopes, hno⟩ hok hstep
    cases e with
    | resolve re =>
      obtain ⟨rst', hs, rfl⟩ := Option.map_eq_some_iff.mp hstep
      have hless := Resolve.step_left hhopes.waits hs
      rcases hhopes.step hc hno (hok rst re rfl rfl) hs with hbridged | hhopes'
      · exact .inl (bridged_resolved hbridged)
      · rw [resolved_of_hopes hhopes']
        by_cases hcollides : rst'.Collides m
        · exact .inl (.inr ⟨_, rfl, hcollides⟩)
        · exact .inr ⟨⟨_, rfl, hhopes', hcollides⟩, .right _ hless⟩
    | _ => cases hstep

end ResolveOrConvert

end

/-- The torrent of one byte `x` is converted from the directory `/1`, the node of the converter
provides it, and a node that has nothing of it resolves it. -/
theorem converted_x_resolves :
    let _ := blake3OfX
    let _ := minFastCDC
    let _ := sha1OfX
    let _ := ownSignatures
    let _ := oneSymbolCode
    let info := torrentOfX dataPath
    let node : EventLoop Nat := .new dataDiskOfX .fresh ⟨∅⟩ [] (.ofByte 0) 0
    ∃ m d₁ s₁, convertLocal dataDiskOfX .fresh info (ascii "/1") false = (.ok m, d₁, s₁) ∧
      (∃ e₁ e₂, node.step (.storage d₁ node.store) = some e₁ ∧
        e₁.step (.provide m.root m.toNptp) = some e₂ ∧ e₂.Tended ∧ e₂.Provides m.root m) ∧
      Inevitably (ResolveOrConvert.step info (ascii "/2") false)
        (ResolveOrConvert.Published 0 1 m) (ResolveOrConvert.Bridged info m)
        (.resolving (.mapping (Disk.fresh ∅ ∅ some) .fresh) : ResolveOrConvert Nat) := by
  intro _ _ _ _ _ info node
  have hconvert : (convertLocal dataDiskOfX .fresh info (ascii "/1") false).1 =
      .ok (@Manifest.fromFiles _ FastCDC.streaming [(dataPath, [120])] (some info.name)) := by
    decide +kernel
  have hfound : dataDiskOfX.HasFiles (info.onDisk (ascii "/1")) [[120]] := by decide +kernel
  have hcopies : dataDiskOfX.Copies (info.onDisk (ascii "/1")) [(dataPath, [120])] :=
    ⟨rfl, hfound⟩
  have hrep : (@Manifest.fromFiles _ FastCDC.streaming [(dataPath, [120])]
      (some info.name)).Representable := by
    refine ⟨?_, ?_, ?_, ?_⟩ <;> decide +kernel
  have hwhole : Store.fresh.Whole dataDiskOfX := Store.whole_fresh
  have hsize : ∀ files, dataDiskOfX.Copies (info.onDisk (ascii "/1")) files →
      (treeBytes files).length < 2 ^ 64 := by
    intro files hfiles
    rw [hfiles.unique hcopies]
    decide
  refine ⟨_, _, _, Prod.ext hconvert rfl, ?_, ?_⟩
  · exact (ResolveOrConvert.converted_torrent_resolves hwhole hsize hrep
      (Prod.ext hconvert rfl)).1 node (EventLoop.tended_new hwhole _ _ _ _) rfl (by decide)
  · exact (ResolveOrConvert.converted_torrent_resolves hwhole hsize hrep
      (Prod.ext hconvert rfl)).2 0 1 _ _ _ _ Store.whole_fresh

end Np2ptp
