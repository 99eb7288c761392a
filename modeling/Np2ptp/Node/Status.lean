import Np2ptp.Node.Daemon

/-!
# What status says

`status` reads the map of announces, and peers are answered from what the network task provides.
An operation that gives the network task a manifest and does not put its root on the map leaves the
two apart: a `provide` whose registration fails, and a conversion that the bridge publishes. The two
agree in every state of a run if and only if no operation of the run does so with a root that is not
on the map already (`status_truthful_iff`).
-/

namespace Np2ptp

open Lib

/-- What happens to a daemon: an operation is completed, or something happens to the network task.
What is provided changes by the commands of operations alone. -/
inductive DaemonEvent (Peer : Type) where
  | op (fs : Fs) (op : Daemon.Op Peer)
  | net (ev : NodeEvent Peer)

/-- A command that changes what is provided. -/
def NodeEvent.isProvision {Peer : Type} : NodeEvent Peer → Bool
  | .provide .. => true
  | .unprovide _ => true
  | _ => false

namespace Daemon

section

variable [Blake3] [FastCDC] [Sha1] [Ed25519] [RaptorQ] {Peer : Type} [DecidableEq Peer]

/-- One event. -/
def step (w : Daemon Peer) : DaemonEvent Peer → Option (Daemon Peer)
  | .op fs op => (w.runOp fs op).map Prod.snd
  | .net ev =>
    if ev.isProvision then none else (w.net.step ev).map fun net => { w with net := net }

/-- The event is an operation that ends in an error event. -/
def Fails (w : Daemon Peer) : DaemonEvent Peer → Prop
  | .op fs op => ∃ e w', w.runOp fs op = some (.error e, w')
  | .net _ => False

omit [FastCDC] [Sha1] in
/-- The network task answers the peer with the manifest of the root. -/
def Answers (p : Peer) (w : Daemon Peer) (root : Hash) : Prop :=
  ∃ bytes, (w.net.serve p (.manifest root)).1 = .manifest (some bytes)

/-- Status tells the truth: it lists the roots whose manifest the peer is answered. -/
def Truthful (p : Peer) (w : Daemon Peer) : Prop := ∀ root, root ∈ w.status ↔ w.Answers p root

/-- The event leaves status truthful, and changes nothing of what it lists and of what is answered
if it ends in an error. -/
def Keeps (p : Peer) (w : Daemon Peer) (ev : DaemonEvent Peer) : Prop :=
  ∀ w', w.step ev = some w' → w'.Truthful p ∧ (w.Fails ev → w'.status = w.status ∧
    ∀ root, w'.Answers p root ↔ w.Answers p root)

/-! ## The condition -/

/-- Every manifest that the call of the bridge gives the network task is of a root that is listed
already. -/
def PublishesListed (w : Daemon Peer) (info : TorrentMeta) (dataDir : Bytes)
    (events : List (ResolveOrConvert.Event Peer)) : Prop :=
  Along (ResolveOrConvert.step info dataDir false)
    (fun st e => ∀ m, provided st e = some m → m.root ∈ w.status)
    (.resolving (.mapping w.net.disk w.store)) events

/-- A `provide` that finds its manifest registers it, and no conversion of a torrent is published,
unless the root is listed already. -/
def Covered (w : Daemon Peer) : DaemonEvent Peer → Prop
  | .op fs (.provide target) =>
    ∀ m, w.loadProvideManifest fs target = .ok m → fs.writesEntry = true ∨ m.root ∈ w.status
  | .op fs (.convertTorrent torrent dataDir parse events) =>
    ∀ bytes info, fs.read torrent = some bytes → parse bytes = .ok info →
      w.PublishesListed info dataDir events
  | .op _ (.torrent downloaded events) =>
    ∀ info dataDir, downloaded = .ok (info, dataDir) → w.PublishesListed info dataDir events
  | _ => True

/-! ## What an operation does to the two sets -/

variable {w w' u : Daemon Peer} {fs : Fs} {p : Peer} {roots : List Hash}

omit [FastCDC] [Sha1] in
theorem answers_iff {root : Hash} : w.Answers p root ↔ root ∈ w.net.provided := by
  rw [Finmap.mem_iff]
  constructor
  · rintro ⟨bytes, h⟩
    exact ⟨bytes, Net.Response.manifest.inj h⟩
  · rintro ⟨bytes, h⟩
    exact ⟨bytes, congrArg Net.Response.manifest h⟩

omit [FastCDC] [Sha1] in
/-- When a truthful status stays truthful: where what the network task is given without being listed
was listed before. -/
theorem Effect.keeps_iff {r : Except DaemonError Unit} (h : w.Effect w' r roots)
    (hw : w.Truthful p) :
    (w'.Truthful p ∧ ((∃ e, r = .error e) → w'.status = w.status ∧
        ∀ root, w'.Answers p root ↔ w.Answers p root)) ↔
      ∀ root ∈ roots, root ∈ w.status := by
  have hw' (root : Hash) : root ∈ w.announces ↔ root ∈ w.net.provided :=
    (hw root).trans answers_iff
  simp only [Truthful, answers_iff, status]
  cases h with
  | gives h =>
    rw [h.announces]
    constructor
    · rintro ⟨htrue, -⟩ root hroot
      exact (htrue root).mpr ((h.provided root).mpr (.inr hroot))
    · intro hlisted
      have hsame (root : Hash) : root ∈ w'.net.provided ↔ root ∈ w.net.provided := by
        rw [h.provided]
        exact or_iff_left_of_imp fun hroot => (hw' root).mp (hlisted root hroot)
      exact ⟨fun root => (hw' root).trans (hsame root).symm, fun _ => ⟨rfl, hsame⟩⟩
  | lists root hlist hgive =>
    refine iff_of_true ⟨fun r => ?_, fun he => nomatch he⟩ (fun _ hr => nomatch hr)
    rw [hlist, hgive, Finset.mem_insert, hw']
  | retires root hlist hgive =>
    refine iff_of_true ⟨fun r => ?_, fun he => nomatch he⟩ (fun _ hr => nomatch hr)
    rw [hlist, hgive, Finset.mem_erase, hw']

omit [RaptorQ] in
theorem publishesListed_iff {info : TorrentMeta} {dataDir : Bytes}
    {events : List (ResolveOrConvert.Event Peer)} : w.PublishesListed info dataDir events ↔
      ∀ root ∈ w.published info dataDir events, root ∈ w.status := by
  rw [published, List.forall_mem_map, forall_gathered_iff]
  rfl

/-- What every operation does, and the condition on it. -/
theorem runOp_effect {op : Op Peer} {r : Except DaemonError Unit}
    (h : w.runOp fs op = some (r, w')) : ∃ roots, w.Effect w' r roots ∧
      (w.Covered (.op fs op) ↔ ∀ root ∈ roots, root ∈ w.status) := by
  have hnone {P : Prop} (hP : P) : P ↔ ∀ root ∈ ([] : List Hash), root ∈ w.status :=
    iff_of_true hP fun _ hr => nomatch hr
  cases op with
  | fetch uri providers attempts => exact ⟨[], .gives (runFetch_gives h), hnone trivial⟩
  | convertTorrent torrent dataDir parse events =>
    rcases runConvertTorrent_gives h with ⟨bytes, info, hread, hparse, hgives⟩ | ⟨hno, hgives⟩
    · refine ⟨_, .gives hgives, ?_⟩
      rw [← publishesListed_iff]
      refine ⟨fun hall => hall bytes info hread hparse, fun hlisted bytes' info' hb hi => ?_⟩
      rw [hread] at hb
      cases hb
      rw [hparse] at hi
      cases hi
      exact hlisted
    · exact ⟨[], .gives hgives, hnone fun bytes info hb hi => absurd hi (hno bytes info hb)⟩
  | convertPath path name =>
    have hgives := runConvertPath_gives w fs path name
    have hrun : w.runConvertPath fs path name = (r, w') := Option.some.inj h
    rw [hrun] at hgives
    exact ⟨[], .gives hgives, hnone trivial⟩
  | torrent downloaded events =>
    rcases runTorrent_gives h with ⟨info, dataDir, rfl, hgives⟩ | ⟨hno, hgives⟩
    · refine ⟨_, .gives hgives, ?_⟩
      rw [← publishesListed_iff]
      refine ⟨fun hall => hall info dataDir rfl, fun hlisted info' dataDir' hd => ?_⟩
      cases hd
      exact hlisted
    · exact ⟨[], .gives hgives, hnone fun info dataDir hd => absurd hd (hno _)⟩
  | provide target =>
    obtain ⟨roots, heffect, hiff⟩ := runProvide_effect w fs target
    have hrun : w.runProvide fs target = (r, w') := Option.some.inj h
    rw [hrun] at heffect
    exact ⟨roots, heffect, hiff.symm⟩
  | unprovide root =>
    have heffect := runUnprovide_effect w fs root
    have hrun : w.runUnprovide fs root = (r, w') := Option.some.inj h
    rw [hrun] at heffect
    exact ⟨[], heffect, hnone trivial⟩

omit [FastCDC] [Sha1] in
/-- What happens to the network task by itself changes neither set. -/
theorem net_gives {net : EventLoop Peer} {ev : NodeEvent Peer} (h : w.net.step ev = some net)
    (hother : ev.isProvision = false) : w.Gives { w with net := net } [] := by
  rcases (EventLoop.step_commanded h).2 with hsame | ⟨root, bytes, rfl⟩ | ⟨root, rfl⟩
  · refine ⟨rfl, fun root => ?_⟩
    simp [hsame]
  · cases hother
  · cases hother

/-- One event keeps a truthful status exactly under the condition. -/
theorem keeps_iff {ev : DaemonEvent Peer} (hw : w.Truthful p) (h : w.step ev = some w') :
    w.Keeps p ev ↔ w.Covered ev := by
  have hkeeps : w.Keeps p ev ↔ w'.Truthful p ∧ (w.Fails ev → w'.status = w.status ∧
      ∀ root, w'.Answers p root ↔ w.Answers p root) :=
    ⟨fun hall => hall w' h, fun hthis u hu => Option.some.inj (h.symm.trans hu) ▸ hthis⟩
  rw [hkeeps]
  cases ev with
  | op fs op =>
    obtain ⟨⟨r, u⟩, hrun, rfl⟩ := Option.map_eq_some_iff.mp h
    obtain ⟨roots, heffect, hiff⟩ := runOp_effect hrun
    rw [hiff, ← heffect.keeps_iff hw]
    have hfails : w.Fails (.op fs op) ↔ ∃ e, r = .error e := by
      simp [Fails, hrun]
    rw [hfails]
  | net ev =>
    have hgives : w.Gives w' [] := by
      rw [step] at h
      split at h
      · cases h
      · next hother =>
        obtain ⟨net, hnet, rfl⟩ := Option.map_eq_some_iff.mp h
        exact net_gives hnet (Bool.eq_false_of_not_eq_true hother)
    refine iff_of_true ⟨?_, fun hfails => hfails.elim⟩ trivial
    exact ((Effect.gives (r := .ok ()) hgives).keeps_iff hw).mpr (fun _ hr => nomatch hr) |>.1

/-! ## Every history -/

/-- Status tells the truth in every state of a run, and no failed operation changes anything, if and
only if every operation of the run meets the condition. -/
theorem status_truthful_iff {events : List (DaemonEvent Peer)} (hstart : w.Truthful p)
    (hrun : runs step w events = some w') :
    Along step (Keeps p) w events ↔ Along step Covered w events := by
  have hagree : ∀ (u : Daemon Peer) ev v, u.Truthful p → u.step ev = some v →
      (u.Keeps p ev ↔ u.Covered ev) := fun u ev v hu hv => keeps_iff hu hv
  have hkeeps : ∀ (u : Daemon Peer) ev v, u.Truthful p → u.Covered ev → u.step ev = some v →
      v.Truthful p := fun u ev v hu hcovered hv => ((keeps_iff hu hv).mpr hcovered v hv).1
  exact along_iff hagree hkeeps hstart hrun

end

end Daemon

/-! ## A daemon beside one byte -/

/-- A daemon that has just started, beside the byte `x` in the file `/1/data`. -/
def daemonOfX : @Daemon Unit noSignatures :=
  let _ := noSignatures
  { net := { nodeOfX with disk := dataDiskOfX, store := .fresh, provided := ∅ }
    store := .fresh
    registry := ∅
    announces := ∅ }

/-- A file system where all goes well, and every file that is read holds these bytes. -/
def Fs.holding (bytes : Bytes) : Fs where
  read _ := some bytes
  isDir _ := some false
  readDirPaths _ := none
  readsEntry := true
  writesEntry := true
  removesEntry := true
  creates := true
  breaks := none

/-- A file with the manifest of `x`. -/
def fsOfX : Fs :=
  let _ := blake3OfX
  let _ := minFastCDC
  .holding (Manifest.fromFiles [(dataPath, [120])] none).toNptp

/-- The content `x` is provided, and then not any more. -/
def provideUnprovide : List (DaemonEvent Unit) :=
  [.op fsOfX (.provide (ascii "x.nptp")), .op fsOfX (.unprovide rootOfX.toHex)]

/-- Providing and retiring it keeps the status truthful. -/
theorem status_truthful_x :
    let _ := blake3OfX
    let _ := minFastCDC
    let _ := sha1OfX
    let _ := noSignatures
    let _ := oneSymbolCode
    ∃ w', runs Daemon.step daemonOfX provideUnprovide = some w' ∧
      Along Daemon.step (Daemon.Keeps ()) daemonOfX provideUnprovide := by
  intro _ _ _ _ _
  have hrun : ∃ w', runs Daemon.step daemonOfX provideUnprovide = some w' := ⟨_, rfl⟩
  obtain ⟨w', hrun⟩ := hrun
  have hstart : daemonOfX.Truthful () := by
    intro root
    rw [Daemon.answers_iff]
    exact iff_of_false (Finset.notMem_empty root) Finmap.notMem_empty
  have hcovered : Along Daemon.step Daemon.Covered daemonOfX provideUnprovide :=
    ⟨fun _ _ => .inl rfl, fun _ _ => ⟨trivial, fun _ _ => trivial⟩⟩
  exact ⟨w', hrun, (Daemon.status_truthful_iff hstart hrun).mpr hcovered⟩

/-- Its torrent is converted: no mapping is found, and the conversion is published. -/
def convertOfX : Daemon.Op Unit :=
  .convertTorrent (ascii "x.torrent") (ascii "/1") (fun _ => .ok (torrentOfX dataPath))
    [.resolve (.record (.ok none)), .convert, .provided (.ok ()), .put (.ok true)]

/-- A conversion that succeeds is served and not listed, and so is a manifest whose registration
fails: that operation ends in an error and has changed what is answered. -/
theorem served_and_not_listed :
    let _ := blake3OfX
    let _ := minFastCDC
    let _ := sha1OfX
    let _ := noSignatures
    let _ := oneSymbolCode
    daemonOfX.Truthful () ∧
      (∃ w', daemonOfX.runOp fsOfX convertOfX = some (.ok (), w') ∧ w'.status = ∅ ∧
        w'.Answers () rootOfX) ∧
      ∃ w', daemonOfX.runOp { fsOfX with writesEntry := false } (.provide (ascii "x.nptp")) =
          some (.error .io, w') ∧
        w'.status = ∅ ∧ w'.Answers () rootOfX ∧ ¬ daemonOfX.Answers () rootOfX := by
  let _ := noSignatures
  have hconvert : (@Daemon.runOp noSignatures Unit blake3OfX oneSymbolCode _ minFastCDC sha1OfX
      daemonOfX fsOfX convertOfX).map (fun x => (x.1, x.2.status, decide (rootOfX ∈
        x.2.net.provided))) = some (.ok (), ∅, true) := by
    decide +kernel
  have hprovide : (@Daemon.runOp noSignatures Unit blake3OfX oneSymbolCode _ minFastCDC sha1OfX
      daemonOfX { fsOfX with writesEntry := false } (.provide (ascii "x.nptp"))).map
      (fun x => (x.1, x.2.status, decide (rootOfX ∈ x.2.net.provided))) =
        some (.error .io, ∅, true) := by
    decide +kernel
  intro _ _ _ _ _
  have hanswers {w : Daemon Unit} (h : decide (rootOfX ∈ w.net.provided) = true) :
      w.Answers () rootOfX := Daemon.answers_iff.mpr (of_decide_eq_true h)
  have hempty (root : Hash) : ¬ daemonOfX.Answers () root := by
    rw [Daemon.answers_iff]
    exact Finmap.notMem_empty
  refine ⟨fun root => iff_of_false (Finset.notMem_empty root) (hempty root), ?_, ?_⟩
  · obtain ⟨⟨r, w'⟩, hrun, heq⟩ := Option.map_eq_some_iff.mp hconvert
    simp only [Prod.mk.injEq] at heq
    obtain ⟨rfl, hstatus, hroot⟩ := heq
    exact ⟨w', hrun, hstatus, hanswers hroot⟩
  · obtain ⟨⟨r, w'⟩, hrun, heq⟩ := Option.map_eq_some_iff.mp hprovide
    simp only [Prod.mk.injEq] at heq
    obtain ⟨rfl, hstatus, hroot⟩ := heq
    exact ⟨w', hrun, hstatus, hanswers hroot, hempty rootOfX⟩

end Np2ptp
