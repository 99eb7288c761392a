import Np2ptp.Bridge.ResolveOrConvert
import Np2ptp.Core.Nptp
import Np2ptp.Net.Choke
import Np2ptp.Store.Export

/-!
# The daemon

The operations of `daemon/mod.rs` over what they share: the network task, a handle of the local
store, the registry of manifests and the map of announces. A command to the network task takes
effect when it is sent: the channel is a queue, and the daemon ends with the task. Each operation
comes with what its environment does: what files hold, what peers answer, and which of its
file-system steps succeed (`Fs`). Left out are the tracker, the progress events (those of a fetch
are a model of their own), the warning events, and the fields of the results.
-/

namespace Np2ptp

open Lib

/-! ## What the operations share -/

/-- `Ctx`, with the network task and the registry directory. -/
structure Daemon (Peer : Type) [Ed25519] where
  net : EventLoop Peer
  /-- The handle of the operations, on the directory of the network task. -/
  store : Store
  /-- `manifests/<root>.nptp`. -/
  registry : HashMap Hash Bytes
  announces : Finset Hash

/-- What the file system does during an operation. -/
structure Fs where
  read : Bytes → Option Bytes
  isDir : Bytes → Option Bool
  readDirPaths : Bytes → Option (List (Text × Bytes))
  readsEntry : Bool
  writesEntry : Bool
  removesEntry : Bool
  creates : Bool
  /-- An I/O error ends the work on the store where it is, and leaves this. -/
  breaks : Option (Disk × Store)

/-- Why an operation ends in an error event. -/
inductive DaemonError where
  | io
  | hex
  | manifest (e : ManifestError)
  | net (e : NetError)
  | store (e : StoreError)
  | bridge (e : BridgeError)
  | notRegistered
  | noPeers
  | noFiles
  | internal
  deriving DecidableEq

/-- Work on the store, which an I/O error may end. -/
def Fs.work {ε α : Type} (fs : Fs) (io : ε) (done : Except ε α × Disk × Store) :
    Except ε α × Disk × Store :=
  match fs.breaks with
  | none => done
  | some (d, s) => (.error io, d, s)

/-- The text in front of a root. -/
def URI_PREFIX : Bytes := ascii "np2ptp:"

namespace Daemon

section

variable [Blake3] [Ed25519] [RaptorQ] {Peer : Type} [DecidableEq Peer]

/-- A command to the network task. -/
def command (w : Daemon Peer) (ev : NodeEvent Peer) : Daemon Peer :=
  { w with net := (w.net.step ev).getD w.net }

/-- `Network::provide`. -/
def provide (w : Daemon Peer) (m : Manifest) : Daemon Peer :=
  w.command (.provide m.root m.toNptp)

/-- `Network::unprovide`. -/
def unprovide (w : Daemon Peer) (root : Hash) : Daemon Peer := w.command (.unprovide root)

/-- What the work on the store has left of it. -/
def stored (w : Daemon Peer) (d : Disk) (s : Store) : Daemon Peer :=
  { w.command (.storage d w.net.store) with store := s }

/-- `register_manifest`: the entry is staged and renamed into place, or there is an error. -/
def registerManifest (w : Daemon Peer) (fs : Fs) (m : Manifest) : Option (Daemon Peer) :=
  if fs.writesEntry then some { w with registry := w.registry.insert m.root m.toNptp } else none

/-- The removal of a registry entry; that it fails is a warning. -/
def unregister (w : Daemon Peer) (fs : Fs) (root : Hash) : Daemon Peer :=
  if fs.removesEntry then { w with registry := w.registry.erase root } else w

/-- The insert into the map of announces. -/
def announce (w : Daemon Peer) (root : Hash) : Daemon Peer :=
  { w with announces := insert root w.announces }

/-- The removal from the map of announces. -/
def unannounce (w : Daemon Peer) (root : Hash) : Daemon Peer :=
  { w with announces := w.announces.erase root }

/-- `run_status`: the list of provided roots. -/
def status (w : Daemon Peer) : Finset Hash := w.announces

end

/-! ## Fetching -/

/-- An attempt to download: the answers that bring it to its end, or an I/O error. -/
inductive Attempt where
  | answered (answers : List Answered)
  | broken (d : Disk) (s : Store)

/-- The attempts that `run_fetch` makes at most. -/
def FETCH_ATTEMPTS : Nat := 5

/-- `looks_like_tree`. -/
def looksLikeTree (m : Manifest) : Bool :=
  decide (1 < m.files.length) || m.files.head?.any fun f => f.path.bytes.contains 47

section

variable [Blake3]

/-- `write_output_to`. -/
def writeOutputTo (fs : Fs) (d : Disk) (s : Store) (m : Manifest) :
    Except DaemonError Unit × Disk × Store :=
  if looksLikeTree m then
    match s.exportTreeToDir d m with
    | (.ok, _, s) => (.ok (), d, s)
    | (.err e, _, s) => (.error (.store e), d, s)
    | (.overflow, _, s) => (.error .internal, d, s)
  else if fs.creates then
    match s.exportTo d m with
    | (.ok (), _, s) => (.ok (), d, s)
    | (.error e, _, s) => (.error (.store e), d, s)
  else (.error .io, d, s)

variable {Peer : Type} [DecidableEq Peer]

/-- One attempt to download. -/
def downloadAttempt (root : Hash) (providers : List Peer) (d : Disk) (s : Store) :
    Attempt → Option (Except NetError Manifest × Disk × Store)
  | .broken d s => some (.error (.store .io), d, s)
  | .answered answers =>
    (runs (Download.step root providers) (.start providers d s) answers).bind fun dl =>
      dl.result.map fun r => (r, dl.disk, dl.store)

/-- The loop of `run_fetch`: the first download that succeeds, or the last error. The deadline
decides how many attempts there are after one that failed. -/
def downloadAttempts (root : Hash) (providers : List Peer) :
    Disk → Store → List Attempt → Option (Except NetError Manifest × Disk × Store)
  | _, _, [] => none
  | d, s, a :: rest =>
    match downloadAttempt root providers d s a with
    | none => none
    | some (.ok m, d, s) => if rest.isEmpty then some (.ok m, d, s) else none
    | some (.error e, d, s) =>
      if rest.isEmpty then some (.error e, d, s) else downloadAttempts root providers d s rest

/-- The root that `run_fetch` fetches. -/
def fetchRoot (fs : Fs) (uri : Bytes) : Except DaemonError Hash :=
  match uri.dropPrefix? URI_PREFIX with
  | some hex =>
    match Hash.fromHex hex with
    | none => .error .hex
    | some root => .ok root
  | none =>
    match fs.read uri with
    | none => .error .io
    | some bytes =>
      match Manifest.fromNptp bytes with
      | .error e => .error (.manifest e)
      | .ok m => .ok m.root

end

/-! ## Converting -/

/-- The manifest whose content a step of `resolve_or_convert_local` gives the network task. -/
def provided {Peer : Type} : ResolveOrConvert Peer → ResolveOrConvert.Event Peer → Option Manifest
  | .providing _ _ m, .provided (.ok ()) => some m
  | _, _ => none

/-- The files that `run_convert` finds under a path, `name` being its last component. -/
def pathFiles (fs : Fs) (path : Bytes) (name : Option Text) :
    Except DaemonError (List (Text × Bytes)) :=
  match fs.isDir path with
  | none => .error .io
  | some true =>
    match fs.readDirPaths path with
    | none => .error .io
    | some files => if files.isEmpty then .error .noFiles else .ok files
  | some false => .ok [(name.getD dataPath, path)]

/-! ## The operations -/

/-- `Op`, with what the environment answers. -/
inductive Op (Peer : Type) where
  | fetch (uri : Bytes) (providers : List Peer) (attempts : List Attempt)
  /-- `convert` with a torrent, which `parse_torrent_file` reads, and the data of it. -/
  | convertTorrent (torrent dataDir : Bytes) (parse : Bytes → Except BridgeError TorrentMeta)
      (events : List (ResolveOrConvert.Event Peer))
  /-- `convert` with a path, whose last component is the name. -/
  | convertPath (path : Bytes) (name : Option Text)
  /-- `torrent`: what was downloaded over BitTorrent, and where to. -/
  | torrent (downloaded : Except BridgeError (TorrentMeta × Bytes))
      (events : List (ResolveOrConvert.Event Peer))
  | provide (target : Bytes)
  | unprovide (root : Bytes)

section

variable [Ed25519] {Peer : Type}

/-- `load_provide_manifest`. -/
def loadProvideManifest (w : Daemon Peer) (fs : Fs) (target : Bytes) :
    Except DaemonError Manifest :=
  match target.dropPrefix? URI_PREFIX with
  | none =>
    match fs.read target with
    | none => .error .io
    | some bytes => (Manifest.fromNptp bytes).mapError .manifest
  | some hex =>
    match Hash.fromHex hex with
    | none => .error .hex
    | some root =>
      match if fs.readsEntry then w.registry.lookup root else none with
      | none => .error .notRegistered
      | some bytes => (Manifest.fromNptp bytes).mapError .manifest

variable [Blake3] [RaptorQ] [DecidableEq Peer]

/-- `run_provide`. -/
def runProvide (w : Daemon Peer) (fs : Fs) (target : Bytes) :
    Except DaemonError Unit × Daemon Peer :=
  match w.loadProvideManifest fs target with
  | .error e => (.error e, w)
  | .ok m =>
    match (w.provide m).registerManifest fs m with
    | none => (.error .io, w.provide m)
    | some w => (.ok (), w.announce m.root)

/-- `run_unprovide`. -/
def runUnprovide (w : Daemon Peer) (fs : Fs) (root : Bytes) :
    Except DaemonError Unit × Daemon Peer :=
  match Hash.fromHex ((root.dropPrefix? URI_PREFIX).getD root) with
  | none => (.error .hex, w)
  | some root => (.ok (), ((w.unannounce root).unprovide root).unregister fs root)

/-- `run_fetch`. -/
def runFetch (w : Daemon Peer) (fs : Fs) (uri : Bytes) (providers : List Peer)
    (attempts : List Attempt) : Option (Except DaemonError Unit × Daemon Peer) :=
  match fetchRoot fs uri with
  | .error e => some (.error e, w)
  | .ok root =>
    if providers.isEmpty then some (.error .noPeers, w)
    else if FETCH_ATTEMPTS < attempts.length then none
    else
      match downloadAttempts root providers w.net.disk w.store attempts with
      | none => none
      | some (.error e, d, s) => some (.error (.net e), w.stored d s)
      | some (.ok m, d, s) =>
        let (r, d, s) := fs.work .io (writeOutputTo fs d s m)
        some (r, w.stored d s)

variable [FastCDC]

/-- `run_convert` with a path. -/
def runConvertPath (w : Daemon Peer) (fs : Fs) (path : Bytes) (name : Option Text) :
    Except DaemonError Unit × Daemon Peer :=
  match pathFiles fs path name with
  | .error e => (.error e, w)
  | .ok files =>
    match fs.work .io (w.store.ingestTreeFiles w.net.disk files name true) with
    | (.error e, d, s) => (.error (.store e), w.stored d s)
    | (.ok m, d, s) =>
      match (w.stored d s).registerManifest fs m with
      | none => (.error .io, w.stored d s)
      | some w => (.ok (), w)

variable [Sha1]

/-- `resolve_or_convert_local`, as far as it gets. -/
def resolveOrConvert (w : Daemon Peer) (fs : Fs) (info : TorrentMeta) (dataDir : Bytes)
    (events : List (ResolveOrConvert.Event Peer)) :
    Option (Except BridgeError Bridge.Outcome × Daemon Peer) :=
  let start : ResolveOrConvert Peer := .resolving (.mapping w.net.disk w.store)
  match runs (ResolveOrConvert.step info dataDir false) start events with
  | none => none
  | some st =>
    let w := (gathered (ResolveOrConvert.step info dataDir false) provided start events).foldl
      provide w
    match st with
    | .returned d s r => some (r, w.stored d s)
    | _ => fs.breaks.map fun left => (.error (.store .io), w.stored left.1 left.2)

/-- `run_convert` with a torrent. -/
def runConvertTorrent (w : Daemon Peer) (fs : Fs) (torrent dataDir : Bytes)
    (parse : Bytes → Except BridgeError TorrentMeta)
    (events : List (ResolveOrConvert.Event Peer)) :
    Option (Except DaemonError Unit × Daemon Peer) :=
  match fs.read torrent with
  | none => some (.error .io, w)
  | some bytes =>
    match parse bytes with
    | .error e => some (.error (.bridge e), w)
    | .ok info =>
      match w.resolveOrConvert fs info dataDir events with
      | none => none
      | some (.error e, w) => some (.error (.bridge e), w)
      | some (.ok o, w) =>
        match w.registerManifest fs o.manifest with
        | none => some (.error .io, w)
        | some w => some (.ok (), w)

/-- `run_torrent`. -/
def runTorrent (w : Daemon Peer) (fs : Fs)
    (downloaded : Except BridgeError (TorrentMeta × Bytes))
    (events : List (ResolveOrConvert.Event Peer)) :
    Option (Except DaemonError Unit × Daemon Peer) :=
  match downloaded with
  | .error e => some (.error (.bridge e), w)
  | .ok (info, dataDir) =>
    match w.resolveOrConvert fs info dataDir events with
    | none => none
    | some (.error e, w) => some (.error (.bridge e), w)
    | some (.ok _, w) => some (.ok (), w)

/-- `run_op`: how the operation ends. -/
def runOp (w : Daemon Peer) (fs : Fs) : Op Peer → Option (Except DaemonError Unit × Daemon Peer)
  | .fetch uri providers attempts => w.runFetch fs uri providers attempts
  | .convertTorrent torrent dataDir parse events =>
    w.runConvertTorrent fs torrent dataDir parse events
  | .convertPath path name => some (w.runConvertPath fs path name)
  | .torrent downloaded events => w.runTorrent fs downloaded events
  | .provide target => some (w.runProvide fs target)
  | .unprovide root => some (w.runUnprovide fs root)

end

/-! ## What an operation does to the two sets -/

section

variable [Ed25519] {Peer : Type}

/-- The network task is given manifests of some roots, and nothing becomes of the map. -/
structure Gives (w w' : Daemon Peer) (roots : List Hash) : Prop where
  announces : w'.announces = w.announces
  provided : ∀ root, root ∈ w'.net.provided ↔ root ∈ w.net.provided ∨ root ∈ roots

/-- What an operation does to the map and to what is provided, by how it ends. -/
inductive Effect (w w' : Daemon Peer) : Except DaemonError Unit → List Hash → Prop
  | gives {r : Except DaemonError Unit} {roots : List Hash} :
    w.Gives w' roots → Effect w w' r roots
  | lists (root : Hash) : w'.announces = insert root w.announces →
    (∀ r, r ∈ w'.net.provided ↔ r = root ∨ r ∈ w.net.provided) → Effect w w' (.ok ()) []
  | retires (root : Hash) : w'.announces = w.announces.erase root →
    (∀ r, r ∈ w'.net.provided ↔ r ≠ root ∧ r ∈ w.net.provided) → Effect w w' (.ok ()) []

variable {w w' u : Daemon Peer} {fs : Fs} {root : Hash} {roots : List Hash}

@[simp] theorem unregister_net (w : Daemon Peer) (fs : Fs) (r : Hash) :
    (w.unregister fs r).net = w.net := by
  unfold unregister
  split
  · rfl
  · rfl

@[simp] theorem unregister_announces (w : Daemon Peer) (fs : Fs) (r : Hash) :
    (w.unregister fs r).announces = w.announces := by
  unfold unregister
  split
  · rfl
  · rfl

theorem mem_unregister {r : Hash} : root ∈ (w.unregister fs r).registry ↔
    root ∈ w.registry ∧ ¬ (r = root ∧ fs.removesEntry = true) := by
  unfold unregister
  split
  · next hremoves =>
    refine Finmap.mem_erase.trans ⟨fun h => ⟨h.2, fun hr => h.1 hr.1.symm⟩, fun h => ⟨?_, h.1⟩⟩
    exact fun hr => h.2 ⟨hr.symm, hremoves⟩
  · next hstays => exact (and_iff_left fun hr => hstays hr.2).symm

theorem Gives.refl (w : Daemon Peer) : w.Gives w [] := ⟨rfl, fun root => by simp⟩

theorem Gives.registered (h : w.Gives w' roots) {m : Manifest}
    (hr : w'.registerManifest fs m = some u) : w.Gives u roots := by
  unfold registerManifest at hr
  split at hr
  · cases hr
    exact ⟨h.announces, h.provided⟩
  · cases hr

variable [Blake3] [RaptorQ] [DecidableEq Peer]

theorem Gives.stored (h : w.Gives w' roots) (d : Disk) (s : Store) :
    w.Gives (w'.stored d s) roots := ⟨h.announces, h.provided⟩

theorem Gives.provide (w : Daemon Peer) (m : Manifest) : w.Gives (w.provide m) [m.root] := by
  refine ⟨rfl, fun root => ?_⟩
  rw [List.mem_singleton, Or.comm]
  exact Finmap.mem_insert

/-- Manifests given one after the other. -/
theorem Gives.foldl (ms : List Manifest) (w : Daemon Peer) :
    w.Gives (ms.foldl Daemon.provide w) (ms.map Manifest.root) := by
  induction ms generalizing w with
  | nil => exact Gives.refl w
  | cons m ms ih =>
    obtain ⟨hannounces, hprovided⟩ := ih (w.provide m)
    refine ⟨hannounces, fun root => (hprovided root).trans ?_⟩
    rw [(Gives.provide w m).provided, List.map_cons, List.mem_singleton, List.mem_cons, or_assoc]

theorem runFetch_gives {uri : Bytes} {providers : List Peer} {attempts : List Attempt}
    {r : Except DaemonError Unit} (h : w.runFetch fs uri providers attempts = some (r, w')) :
    w.Gives w' [] := by
  unfold runFetch at h
  split at h
  · cases h
    exact Gives.refl w
  · split at h
    · cases h
      exact Gives.refl w
    · split at h
      · cases h
      · split at h
        · cases h
        · cases h
          exact (Gives.refl w).stored _ _
        · cases h
          exact (Gives.refl w).stored _ _

theorem runProvide_effect (w : Daemon Peer) (fs : Fs) (target : Bytes) :
    ∃ roots, w.Effect (w.runProvide fs target).2 (w.runProvide fs target).1 roots ∧
      ((∀ root ∈ roots, root ∈ w.announces) ↔ ∀ m, w.loadProvideManifest fs target = .ok m →
        fs.writesEntry = true ∨ m.root ∈ w.announces) := by
  unfold runProvide
  cases w.loadProvideManifest fs target with
  | error e => exact ⟨[], .gives (Gives.refl w), by simp⟩
  | ok m =>
    have hgives := Gives.provide w m
    cases hwrites : fs.writesEntry with
    | false =>
      refine ⟨[m.root], ?_, by simp⟩
      simp only [registerManifest, hwrites]
      exact .gives hgives
    | true =>
      refine ⟨[], ?_, by simp⟩
      simp only [registerManifest, hwrites]
      exact .lists m.root rfl fun r => Finmap.mem_insert

theorem runUnprovide_effect (w : Daemon Peer) (fs : Fs) (root : Bytes) :
    w.Effect (w.runUnprovide fs root).2 (w.runUnprovide fs root).1 [] := by
  unfold runUnprovide
  split
  · exact .gives (Gives.refl w)
  · next root _ =>
    refine .retires root (unregister_announces _ _ _) fun r => ?_
    rw [unregister_net]
    exact Finmap.mem_erase

variable [FastCDC]

theorem runConvertPath_gives (w : Daemon Peer) (fs : Fs) (path : Bytes) (name : Option Text) :
    w.Gives (w.runConvertPath fs path name).2 [] := by
  unfold runConvertPath
  split
  · exact Gives.refl w
  · split
    · exact (Gives.refl w).stored _ _
    · split
      · exact (Gives.refl w).stored _ _
      · next hr => exact ((Gives.refl w).stored _ _).registered hr

variable [Sha1] {info : TorrentMeta} {dataDir : Bytes}
  {events : List (ResolveOrConvert.Event Peer)}

/-- The roots that the call of the bridge gives the network task. -/
def published (w : Daemon Peer) (info : TorrentMeta) (dataDir : Bytes)
    (events : List (ResolveOrConvert.Event Peer)) : List Hash :=
  (gathered (ResolveOrConvert.step info dataDir false) provided
    (.resolving (.mapping w.net.disk w.store)) events).map Manifest.root

theorem resolveOrConvert_gives {r : Except BridgeError Bridge.Outcome}
    (h : w.resolveOrConvert fs info dataDir events = some (r, w')) :
    w.Gives w' (w.published info dataDir events) := by
  unfold resolveOrConvert at h
  dsimp only at h
  split at h
  · cases h
  · have hgives := Gives.foldl (gathered (ResolveOrConvert.step info dataDir false) provided
      (.resolving (.mapping w.net.disk w.store)) events) w
    split at h
    · cases h
      exact hgives.stored _ _
    · obtain ⟨left, -, hleft⟩ := Option.map_eq_some_iff.mp h
      cases hleft
      exact hgives.stored _ _

/-- A conversion gives what the bridge publishes, where it gets as far as the bridge. -/
theorem runConvertTorrent_gives {torrent : Bytes} {parse : Bytes → Except BridgeError TorrentMeta}
    {r : Except DaemonError Unit}
    (h : w.runConvertTorrent fs torrent dataDir parse events = some (r, w')) :
    (∃ bytes info, fs.read torrent = some bytes ∧ parse bytes = .ok info ∧
        w.Gives w' (w.published info dataDir events)) ∨
      ((∀ bytes info, fs.read torrent = some bytes → parse bytes ≠ .ok info) ∧ w.Gives w' []) := by
  unfold runConvertTorrent at h
  split at h
  · next hread =>
    cases h
    exact .inr ⟨fun bytes info hb => by simp [hread] at hb, Gives.refl w⟩
  · next bytes hread =>
    split at h
    · next hparse =>
      cases h
      refine .inr ⟨fun bytes' info hb hi => ?_, Gives.refl w⟩
      rw [hread] at hb
      cases hb
      rw [hparse] at hi
      cases hi
    · next info hparse =>
      refine .inl ⟨bytes, info, hread, hparse, ?_⟩
      split at h
      · cases h
      · next hcall =>
        cases h
        exact resolveOrConvert_gives hcall
      · next hcall =>
        have hgives := resolveOrConvert_gives hcall
        split at h
        · cases h
          exact hgives
        · next hr =>
          cases h
          exact hgives.registered hr

theorem runTorrent_gives {downloaded : Except BridgeError (TorrentMeta × Bytes)}
    {r : Except DaemonError Unit} (h : w.runTorrent fs downloaded events = some (r, w')) :
    (∃ info dataDir, downloaded = .ok (info, dataDir) ∧
        w.Gives w' (w.published info dataDir events)) ∨
      ((∀ found, downloaded ≠ .ok found) ∧ w.Gives w' []) := by
  unfold runTorrent at h
  split at h
  · cases h
    exact .inr ⟨fun found hf => (by cases hf), Gives.refl w⟩
  · next info dataDir =>
    refine .inl ⟨info, dataDir, rfl, ?_⟩
    split at h
    · cases h
    · next hcall =>
      cases h
      exact resolveOrConvert_gives hcall
    · next hcall =>
      cases h
      exact resolveOrConvert_gives hcall

end

end Daemon

end Np2ptp
