import Np2ptp.Net.Honest
import Np2ptp.Net.Progress
import Np2ptp.Net.Seeding

/-!
# Content outlives its first seed

Nodes that serve, downloads that become nodes when they are done, and strangers who send what they
like, on a network that delivers late, more than once or not at all. A node need not have been there
from the start, nor stay: whoever holds a content id holds the content of it
(`holders_have_content`), and a download that has any one holder among its providers is bound to
finish (`download_inevitable`), also when the first seed is long gone. Both rest on one invariant of
the whole (`Sharing.Safe`), which every event keeps (`Sharing.step_safe`).
-/

namespace Np2ptp

open Lib

/-! ## The parties and the network -/

/-- A response under way, with the request that it answers. -/
structure Sharing.Message (Peer : Type) where
  server : Peer
  client : Peer
  request : Net.Request
  response : Net.Response
  deriving DecidableEq

/-- A download that a peer runs. -/
structure Client (Peer : Type) where
  root : Hash
  providers : List Peer
  download : Download Peer

/-- What an answer consists of. -/
def Answered.answer : Answered → Answer
  | .manifest a => a
  | .chunk _ a => a

/-- Whom a download has asked, and for what, where it waits for such an answer. -/
def Client.asked {Peer : Type} (c : Client Peer) : Answered → Option (Peer × Net.Request)
  | .manifest _ =>
    match c.download.phase with
    | .manifest (p :: _) => some (p, .manifest c.root)
    | _ => none
  | .chunk slot _ =>
    match c.download.phase with
    | .fetching f =>
      (f.inFlight.find? fun t => decide (t.slot = slot)).bind fun t =>
        (t.provider c.providers).map fun p => (p, .chunk t.hash)
    | _ => none

/-- The nodes, the downloads, and every response sent to one that runs. -/
structure Sharing (Peer : Type) [Ed25519] where
  nodes : Peer → Option (EventLoop Peer)
  clients : Peer → Option (Client Peer)
  sent : List (Sharing.Message Peer)

/-- Nobody is there. -/
def Sharing.empty {Peer : Type} [Ed25519] : Sharing Peer := ⟨fun _ => none, fun _ => none, []⟩

/-- What happens. -/
inductive Sharing.Event (Peer : Type) [Ed25519] where
  | join (q : Peer) (e : EventLoop Peer)
  | leave (q : Peer)
  /-- Something happens to a node, other than a request from a download. -/
  | node (q : Peer) (ev : NodeEvent Peer)
  /-- A node answers a request. -/
  | serve (q p : Peer) (request : Net.Request)
  /-- A peer that is none of the nodes sends a response of its choice. -/
  | forge (message : Sharing.Message Peer)
  /-- A peer begins a download. -/
  | arrive (p : Peer) (root : Hash) (providers : List Peer) (d : Disk) (s : Store)
  /-- A download gets an answer. -/
  | answer (p : Peer) (a : Answered)
  /-- A peer whose download is done serves what it has. -/
  | reshare (p : Peer) (ledger : Ledger Peer) (receipts : List Receipt)
      (repIdentity : Ed25519.SigningKey) (now : UInt64)

section

variable [Blake3] [Ed25519] [RaptorQ] {Peer : Type} [DecidableEq Peer]

/-- A download is answered with an error, or with a response that was sent to its request. -/
def Sharing.Delivers (w : Sharing Peer) (p : Peer) (c : Client Peer) (a : Answered) : Prop :=
  match c.asked a, a.answer with
  | some (q, request), .ok response => ⟨q, p, request, response⟩ ∈ w.sent
  | _, _ => True

instance Sharing.decidableDelivers (w : Sharing Peer) (p : Peer) (c : Client Peer)
    (a : Answered) : Decidable (w.Delivers p c a) := by
  unfold Sharing.Delivers
  split <;> infer_instance

omit [RaptorQ] [Blake3] [DecidableEq Peer] in
/-- An error may always be the answer. -/
theorem Sharing.delivers_error (w : Sharing Peer) (p : Peer) (c : Client Peer) {a : Answered}
    {e : NetError} (ha : a.answer = .error e) : w.Delivers p c a := by
  unfold Sharing.Delivers
  split
  · next hr =>
    rw [ha] at hr
    cases hr
  · trivial

/-- The node that a finished download becomes: its store is opened anew, and the manifest
provided. -/
def Client.toNode (c : Client Peer) (ledger : Ledger Peer) (receipts : List Receipt)
    (repIdentity : Ed25519.SigningKey) (now : UInt64) : Option (EventLoop Peer) :=
  match c.download.result, Store.open c.download.disk with
  | some (.ok m), (.ok s, d) =>
    (EventLoop.new d s ledger receipts repIdentity now).step (.provide m.root m.toNptp)
  | _, _ => none

/-- One event. -/
def Sharing.step (w : Sharing Peer) : Sharing.Event Peer → Option (Sharing Peer)
  | .join q e => some { w with nodes := Function.update w.nodes q (some e) }
  | .leave q => some { w with nodes := Function.update w.nodes q none }
  | .node q ev =>
    match w.nodes q with
    | none => none
    | some e =>
      (e.step ev).map fun e => { w with nodes := Function.update w.nodes q (some e) }
  | .serve q p request =>
    match w.nodes q with
    | none => none
    | some e => some { w with
        nodes := Function.update w.nodes q (some (e.serve p request).2)
        sent := ⟨q, p, request, (e.serve p request).1⟩ :: w.sent }
  | .forge message =>
    if (w.nodes message.server).isNone then some { w with sent := message :: w.sent } else none
  | .arrive p root providers d s => some { w with
      clients := Function.update w.clients p (some ⟨root, providers, .start providers d s⟩)
      sent := w.sent.filter fun m => decide (m.client ≠ p) }
  | .answer p a =>
    match w.clients p with
    | none => none
    | some c =>
      if w.Delivers p c a then
        (c.download.step c.root c.providers a).map fun st =>
          { w with clients := Function.update w.clients p (some { c with download := st }) }
      else none
  | .reshare p ledger receipts repIdentity now =>
    match w.clients p with
    | none => none
    | some c =>
      (c.toNode ledger receipts repIdentity now).map fun e => { w with
        nodes := Function.update w.nodes p (some e)
        clients := Function.update w.clients p none }

/-- Nodes come as tended ones and are tended, and downloads begin on whole directories. A chunk has
less than 4 GiB. -/
def Sharing.Ok (w : Sharing Peer) : Sharing.Event Peer → Prop
  | .join _ e => e.Tended
  | .node q ev => ∀ e, w.nodes q = some e → e.Tends ev
  | .arrive _ _ _ d s => s.Whole d
  | .answer p a => ∀ c, w.clients p = some c → ∀ bytes, c.download.brought a = some bytes →
      bytes.length < 2 ^ 32
  | _ => True

/-! ## A download on a whole directory -/

omit [Ed25519] [RaptorQ] in
/-- A manifest that is accepted can be written down again. -/
theorem representable_of_getManifest {root : Hash} {a : Answer} {m : Manifest}
    (h : getManifest root a = .ok m) : m.Representable := by
  unfold getManifest at h
  split at h
  · cases h
  · split at h
    · cases h
    · next hparse =>
      split at h
      · cases h
      · split at h
        · cases h
        · cases h
          exact (Manifest.toNptp_prefix_of_fromNptp hparse).1
  · cases h
  · cases h

omit [Ed25519] [RaptorQ] in
/-- Looking for the listed chunks keeps the handle. -/
theorem Store.Whole.missing {d : Disk} : ∀ (chunks : List ChunkRef) {s : Store} (i : Nat),
    s.Whole d → Store.Kept d s (Store.missing d s i chunks).2
  | [], _, _, hw => hw.kept
  | c :: chunks, _, i, hw =>
    (hw.has c.hash).trans (Store.Whole.missing chunks (i + 1) (hw.has c.hash).whole)

omit [Ed25519] [RaptorQ] in
/-- One answer keeps the handle whole. -/
theorem Download.step_whole {root : Hash} {providers : List Peer} {st st' : Download Peer}
    {a : Answered} (hw : st.store.Whole st.disk)
    (hlen : ∀ bytes, st.brought a = some bytes → bytes.length < 2 ^ 32)
    (hstep : st.step root providers a = some st') : st'.store.Whole st'.disk := by
  cases Download.steps_of_step hstep with
  | @accepted a p rest m hp hm => exact (Store.Whole.missing m.chunks 0 hw).whole
  | refused hp he hrest => exact hw
  | exhausted hp he => exact hw
  | next hp ht hno hk => exact hw
  | failed hp ht hno hk => exact hw
  | unwritten hp ht hb hok hput =>
    exact (hw.put (hlen _ (Download.brought_of_ok hp ht hb hok)) hput).1
  | stored hp ht hb hok hput =>
    exact (hw.put (hlen _ (Download.brought_of_ok hp ht hb hok)) hput).1

/-- A download that began on a whole directory, has only accepted a right manifest, and accounts
for all that it has done. -/
structure Client.Safe (c : Client Peer) : Prop where
  fits : c.download.phase.Fits c.providers
  right : c.download.phase.Holds fun m => m.Vetted c.root ∧ m.Representable
  whole : c.download.store.Whole c.download.disk
  account : ∃ d₀ s₀ stored, s₀.Whole d₀ ∧ Download.Account d₀ s₀ c.download stored

omit [Ed25519] [RaptorQ] [DecidableEq Peer] in
theorem Client.safe_start {d : Disk} {s : Store} (hw : s.Whole d) (root : Hash)
    (providers : List Peer) : Client.Safe ⟨root, providers, .start providers d s⟩ := by
  refine ⟨Download.start_fits providers d s, ?_, hw, d, s, [], hw, .inl ⟨?_, rfl, rfl, rfl, rfl⟩⟩
  · show (if providers = [] then Phase.returned (.error .noProviders) ∅ else
      .manifest providers).Holds _
    split <;> trivial
  · show (if providers = [] then Phase.returned (.error .noProviders) ∅ else
      .manifest providers).Early
    split
    · exact ⟨_, rfl⟩
    · trivial

omit [Ed25519] [RaptorQ] in
/-- One answer keeps a download safe. -/
theorem Client.step_safe {c : Client Peer} {a : Answered} {st : Download Peer} (h : c.Safe)
    (hlen : ∀ bytes, c.download.brought a = some bytes → bytes.length < 2 ^ 32)
    (hstep : c.download.step c.root c.providers a = some st) :
    Client.Safe { c with download := st } := by
  obtain ⟨d₀, s₀, stored, hw₀, haccount⟩ := h.account
  refine ⟨Download.step_fits _ a st h.fits hstep, ?_, Download.step_whole h.whole hlen hstep,
    d₀, s₀, stored ++ (c.download.stores a).toList, hw₀, ?_⟩
  · exact Download.step_holds (fun b m _ hm => ⟨vetted_of_getManifest hm,
      representable_of_getManifest hm⟩) h.right hstep
  · have hsafe : c.download.PutsSafely a := fun bytes hb => h.whole.putSafe (hlen bytes hb)
    exact Download.account_step hw₀.steady.sound hw₀.steady.objects hw₀.sound hw₀.lines
      (fun g hg => hw₀.reads (hw₀.has_iff.mp hg)) h.fits haccount hsafe hstep

omit [Ed25519] [RaptorQ] [DecidableEq Peer] in
/-- A download that is done has a vetted manifest and all its chunks. -/
theorem Client.Safe.done {c : Client Peer} (h : c.Safe) {m : Manifest}
    (hr : c.download.result = some (.ok m)) : m.Vetted c.root ∧
      Manifest.fromNptp m.toNptp = .ok m ∧
      ∀ g ∈ m.hashes, c.download.store.Has c.download.disk g := by
  obtain ⟨hvetted, hm⟩ := Download.holds_of_result h.right hr
  refine ⟨hvetted, Manifest.nptp_round_trips.1 m hm, fun g hg => ?_⟩
  obtain ⟨receipts, hp⟩ := Download.phase_of_result hr
  obtain ⟨d₀, s₀, stored, -, ⟨hearly, -⟩ | ⟨m', htally⟩⟩ := h.account
  · rw [hp] at hearly
    obtain ⟨e, he⟩ := hearly
    cases he
  · have hphase := htally.phase
    rw [hp] at hphase
    obtain ⟨rfl, hserves, -⟩ := hphase
    exact h.whole.sound.has_of_serves (hserves g hg)

/-- What a finished download turns into is a tended node that provides what was downloaded. -/
theorem Client.Safe.toNode {c : Client Peer} (h : c.Safe) {ledger : Ledger Peer}
    {receipts : List Receipt} {key : Ed25519.SigningKey} {now : UInt64} {e : EventLoop Peer}
    (he : c.toNode ledger receipts key now = some e) :
    e.Tended ∧ ∃ m, c.download.result = some (.ok m) ∧
      e.provided.lookup c.root = some m.toNptp := by
  unfold Client.toNode at he
  split at he
  · next m s d hr hopen =>
    obtain ⟨hvetted, hparse, hhas⟩ := h.done hr
    obtain ⟨t, d', hopen', hwhole, -, hkept⟩ := h.whole.open
    rw [hopen] at hopen'
    cases hopen'
    have hbacks : (EventLoop.new d s ledger receipts key now).Tends
        (.provide m.root m.toNptp) :=
      ⟨m, hparse, hvetted.1 ▸ hvetted, fun g hg => hkept g (hhas g hg)⟩
    refine ⟨EventLoop.step_tended (EventLoop.tended_new hwhole ledger receipts key now) hbacks he,
      m, hr, ?_⟩
    cases he
    rw [← hvetted.1]
    exact Finmap.lookup_insert _
  · cases he

/-! ## The whole -/

/-- The invariant: nodes are tended and downloads are safe. What is under way does not matter. -/
structure Sharing.Safe (w : Sharing Peer) : Prop where
  nodes : ∀ q e, w.nodes q = some e → e.Tended
  clients : ∀ p c, w.clients p = some c → c.Safe

omit [RaptorQ] [DecidableEq Peer] in
theorem Sharing.safe_empty : (Sharing.empty : Sharing Peer).Safe :=
  ⟨fun _ _ h => (by cases h), fun _ _ h => (by cases h)⟩

omit [Blake3] [Ed25519] [RaptorQ] in
/-- A table after one entry was written. -/
theorem of_update {α : Type} {P : α → Prop} {f : Peer → Option α} {q : Peer} {o : Option α}
    (h : ∀ p x, f p = some x → P x) (ho : ∀ x, o = some x → P x) :
    ∀ p x, Function.update f q o p = some x → P x := by
  intro p x hx
  by_cases hp : p = q
  · subst hp
    rw [Function.update_self] at hx
    exact ho x hx
  · rw [Function.update_of_ne hp] at hx
    exact h p x hx

/-- One event keeps it. -/
theorem Sharing.step_safe {w w' : Sharing Peer} {ev : Sharing.Event Peer} (h : w.Safe)
    (hok : w.Ok ev) (hstep : w.step ev = some w') : w'.Safe := by
  cases ev with
  | join q e =>
    cases hstep
    refine ⟨of_update h.nodes fun x hx => ?_, h.clients⟩
    cases hx
    exact hok
  | leave q =>
    cases hstep
    exact ⟨of_update h.nodes fun x hx => (by cases hx), h.clients⟩
  | node q ev =>
    rw [Sharing.step] at hstep
    split at hstep
    · cases hstep
    · next e he =>
      obtain ⟨e', he', rfl⟩ := Option.map_eq_some_iff.mp hstep
      refine ⟨of_update h.nodes fun x hx => ?_, h.clients⟩
      cases hx
      exact EventLoop.step_tended (h.nodes q e he) (hok e he) he'
  | serve q p request =>
    rw [Sharing.step] at hstep
    split at hstep
    · cases hstep
    · next e he =>
      cases hstep
      refine ⟨of_update h.nodes fun x hx => ?_, h.clients⟩
      cases hx
      have htends : e.Tends (.request p request) := trivial
      exact EventLoop.step_tended (h.nodes q e he) htends rfl
  | forge message =>
    rw [Sharing.step] at hstep
    split at hstep
    · cases hstep
      exact ⟨h.nodes, h.clients⟩
    · cases hstep
  | arrive p root providers d s =>
    cases hstep
    refine ⟨h.nodes, of_update h.clients fun x hx => ?_⟩
    cases hx
    exact Client.safe_start hok root providers
  | answer p a =>
    rw [Sharing.step] at hstep
    split at hstep
    · cases hstep
    · next c hc =>
      split at hstep
      · obtain ⟨st, hst, rfl⟩ := Option.map_eq_some_iff.mp hstep
        refine ⟨h.nodes, of_update h.clients fun x hx => ?_⟩
        cases hx
        exact Client.step_safe (h.clients p c hc) (hok c hc) hst
      · cases hstep
  | reshare p ledger receipts repIdentity now =>
    rw [Sharing.step] at hstep
    split at hstep
    · cases hstep
    · next c hc =>
      obtain ⟨e, he, rfl⟩ := Option.map_eq_some_iff.mp hstep
      refine ⟨of_update h.nodes fun x hx => ?_, of_update h.clients fun x hx => (by cases hx)⟩
      cases hx
      exact ((h.clients p c hc).toNode he).1

/-- Every run keeps it. -/
theorem Sharing.safe_of_runs {w : Sharing Peer} {events : List (Sharing.Event Peer)}
    (hok : Along Sharing.step Sharing.Ok Sharing.empty events)
    (hrun : runs Sharing.step Sharing.empty events = some w) : w.Safe :=
  runs_invariant (fun _ _ _ => Sharing.step_safe) Sharing.safe_empty hok hrun

/-- Where the content of a manifest is kept: by a node that provides it under the content id, or
by a download of the content id that is done with it. -/
inductive Sharing.Holder (w : Sharing Peer) (root : Hash) (m : Manifest) : Disk → Store → Prop
  | node {q : Peer} {e : EventLoop Peer} : w.nodes q = some e → e.Provides root m →
      Holder w root m e.disk e.store
  | client {p : Peer} {c : Client Peer} : w.clients p = some c → c.root = root →
      c.download.result = some (.ok m) → Holder w root m c.download.disk c.download.store

omit [RaptorQ] [DecidableEq Peer] in
/-- What a holder has. -/
theorem Sharing.Safe.holder {w : Sharing Peer} (h : w.Safe) {root : Hash} {m : Manifest} {d : Disk}
    {s : Store} (hh : w.Holder root m d s) :
    s.Whole d ∧ m.Vetted root ∧ ∀ g ∈ m.hashes, s.Has d g := by
  cases hh with
  | node hq hm =>
    have htended := h.nodes _ _ hq
    exact ⟨htended.whole, htended.provides hm⟩
  | client hp hroot hr =>
    have hsafe := h.clients _ _ hp
    obtain ⟨hvetted, -, hhas⟩ := hsafe.done hr
    exact ⟨hsafe.whole, hroot ▸ hvetted, hhas⟩

/-- Whoever holds a content id holds the content, in every run: however many nodes and downloads
have come and gone, in whatever order their messages were sent and arrived, and whatever strangers
sent in between. What a node provides is a manifest that every client accepts; it and every download
that is done can read each listed chunk, and export the bytes of any tree that has the content id,
or two different strings that were hashed have one digest. -/
theorem holders_have_content [FastCDC] {events : List (Sharing.Event Peer)} {w : Sharing Peer}
    (hok : Along Sharing.step Sharing.Ok Sharing.empty events)
    (hrun : runs Sharing.step Sharing.empty events = some w) :
    (∀ q e root bytes, w.nodes q = some e → e.provided.lookup root = some bytes →
      ∃ m, getManifest root (.ok (.manifest (some bytes))) = .ok m ∧
        w.Holder root m e.disk e.store) ∧
    ∀ root m d s, w.Holder root m d s →
      (∀ h ∈ m.hashes, s.Reads d h) ∧
      ∀ files name, (Manifest.fromFiles files name).root = root →
        ∃ out s', Store.exportTo d s m = (.ok (), out, s') ∧
          (out = treeBytes files ∨ ∃ written : List Bytes, out = written.flatten ∧
            Collision Hash.of (merkleStrings m.hashes ++ written)
              (merkleStrings (Manifest.fromFiles files name).hashes ++ treePieces files)) := by
  have hsafe := Sharing.safe_of_runs hok hrun
  constructor
  · intro q e root bytes hq hl
    obtain ⟨m, hparse, hvetted, -⟩ := (hsafe.nodes q e hq).backs root bytes hl
    exact ⟨m, getManifest_of_vetted hparse hvetted, .node hq ⟨bytes, hl, hparse⟩⟩
  · intro root m d s hholder
    obtain ⟨hwhole, ⟨hroot, hcons, -⟩, hhas⟩ := hsafe.holder hholder
    refine ⟨fun g hg => hwhole.reads (hhas g hg), fun files name hfiles => ?_⟩
    obtain ⟨out, s', hexport⟩ := hwhole.exportTo hcons hhas
    obtain ⟨written, rfl, hmap⟩ := Store.exportTo_ok hexport
    have hsame : merkleRoot m.hashes = (Manifest.fromFiles files name).root := by
      rw [beq_iff_eq.mp hcons, hroot, hfiles]
    refine ⟨_, s', hexport, ?_⟩
    rcases eq_treePieces_or_collision hmap hsame with rfl | hc
    · exact .inl (flatten_treePieces files)
    · exact .inr ⟨written, rfl, hc⟩

/-! ## One holder is enough -/

/-- What a node that provides the manifest answers. -/
def Net.Response.Fulfils (root : Hash) (m : Manifest) : Net.Request → Net.Response → Prop
  | .manifest root', r => root' = root →
    ∃ bytes, r = .manifest (some bytes) ∧ Manifest.fromNptp bytes = .ok m
  | .chunk hash, r => hash ∈ m.hashes → ∃ data, r = .chunk (some data) ∧ Hash.of data = hash
  | _, _ => True

/-- The node `q` stays, provides the manifest on, and does not choke `p`; the download of `p` is
left alone. -/
def Sharing.Stays (q p : Peer) (root : Hash) (m : Manifest) (w : Sharing Peer) :
    Sharing.Event Peer → Prop
  | .join r _ => r ≠ q
  | .leave r => r ≠ q
  | .node r ev => r = q → ev.Leaves root m
  | .serve r p' _ => r = q → p' = p → ∀ e, w.nodes q = some e → e.chokes p = false
  | .forge _ => True
  | .arrive p' _ _ _ _ => p' ≠ p
  | .answer p' _ => p' ≠ p
  | .reshare p' _ _ _ _ => p' ≠ q ∧ p' ≠ p

/-- The node `q` stays and provides the manifest on. -/
def Sharing.Remains (q : Peer) (root : Hash) (m : Manifest) : Sharing.Event Peer → Prop
  | .join r _ => r ≠ q
  | .leave r => r ≠ q
  | .node r ev => r = q → ev.Leaves root m
  | .reshare p _ _ _ _ => p ≠ q
  | _ => True

omit [Blake3] [RaptorQ] in
theorem Sharing.Stays.remains {q p : Peer} {root : Hash} {m : Manifest} {w : Sharing Peer}
    {ev : Sharing.Event Peer} (h : w.Stays q p root m ev) : Sharing.Remains q root m ev := by
  cases ev with
  | join r e => exact h
  | leave r => exact h
  | node r ev => exact h
  | reshare p' ledger receipts repIdentity now => exact h.1
  | _ => trivial

/-- The node `q` provides the manifest. -/
def Sharing.Seeds (w : Sharing Peer) (q : Peer) (root : Hash) (m : Manifest) : Prop :=
  ∃ e, w.nodes q = some e ∧ e.Provides root m

/-- A node that stays provides its manifest on, whatever else happens. -/
theorem Sharing.Seeds.step {w w' : Sharing Peer} {q : Peer} {root : Hash} {m : Manifest}
    {ev : Sharing.Event Peer} (h : w.Seeds q root m) (hsafe : w.Safe)
    (hremains : Sharing.Remains q root m ev) (hstep : w.step ev = some w') : w'.Seeds q root m := by
  obtain ⟨e, he, hm⟩ := h
  have hother {r : Peer} {o : Option (EventLoop Peer)} (hr : r ≠ q) :
      Function.update w.nodes r o q = some e :=
    (Function.update_of_ne (Ne.symm hr) _ _).trans he
  -- an event of the node itself, or of another
  have hnode {r : Peer} {ev' : NodeEvent Peer} {e₁ e' : EventLoop Peer}
      (hev : r = q → ev'.Leaves root m) (he₁ : w.nodes r = some e₁)
      (hstep' : e₁.step ev' = some e') : ∃ e₂,
      Function.update w.nodes r (some e') q = some e₂ ∧ e₂.Provides root m := by
    by_cases hr : r = q
    · subst hr
      rw [he] at he₁
      cases he₁
      exact ⟨e', Function.update_self _ _ _,
        EventLoop.step_provides (hsafe.nodes r e he).whole hm (hev rfl) hstep'⟩
    · exact ⟨e, hother hr, hm⟩
  cases ev with
  | join r e' =>
    cases hstep
    exact ⟨e, hother hremains, hm⟩
  | leave r =>
    cases hstep
    exact ⟨e, hother hremains, hm⟩
  | node r ev' =>
    rw [Sharing.step] at hstep
    split at hstep
    · cases hstep
    · next e₁ he₁ =>
      obtain ⟨e', he', rfl⟩ := Option.map_eq_some_iff.mp hstep
      exact hnode hremains he₁ he'
  | serve r p request =>
    rw [Sharing.step] at hstep
    split at hstep
    · cases hstep
    · next e₁ he₁ =>
      cases hstep
      have hleaves : (NodeEvent.request p request).Leaves root m := trivial
      exact hnode (fun _ => hleaves) he₁ rfl
  | forge message =>
    rw [Sharing.step] at hstep
    split at hstep
    · cases hstep
      exact ⟨e, he, hm⟩
    · cases hstep
  | arrive p root' providers d s =>
    cases hstep
    exact ⟨e, he, hm⟩
  | answer p a =>
    rw [Sharing.step] at hstep
    split at hstep
    · cases hstep
    · split at hstep
      · obtain ⟨st, -, rfl⟩ := Option.map_eq_some_iff.mp hstep
        exact ⟨e, he, hm⟩
      · cases hstep
  | reshare p ledger receipts repIdentity now =>
    rw [Sharing.step] at hstep
    split at hstep
    · cases hstep
    · obtain ⟨e', -, rfl⟩ := Option.map_eq_some_iff.mp hstep
      exact ⟨e, hother hremains, hm⟩

/-- The download `c` of `p` waits, the node `q` provides the manifest, and whatever is under way
from `q` to `p` is an answer. -/
structure Sharing.Waits (q p : Peer) (root : Hash) (m : Manifest) (c : Client Peer)
    (w : Sharing Peer) : Prop where
  safe : w.Safe
  node : w.Seeds q root m
  client : w.clients p = some c
  sent : ∀ x ∈ w.sent, x.server = q → x.client = p → x.response.Fulfils root m x.request

/-- A node that does not choke fulfils every request. -/
theorem EventLoop.Tended.fulfils {e : EventLoop Peer} (h : e.Tended) {root : Hash} {m : Manifest}
    (hm : e.Provides root m) {p : Peer} (hchoke : e.chokes p = false) (request : Net.Request) :
    (e.serve p request).1.Fulfils root m request := by
  cases request with
  | manifest root' =>
    rintro rfl
    exact hm.serve_manifest p
  | chunk hash => exact fun hlisted => h.serve_chunk hchoke ((h.provides hm).2 hash hlisted)
  | _ => trivial

/-- One event in between leaves the download waiting. -/
theorem Sharing.Waits.step {q p : Peer} {root : Hash} {m : Manifest} {c : Client Peer}
    {w w' : Sharing Peer} {ev : Sharing.Event Peer} (h : w.Waits q p root m c)
    (hok : w.Ok ev ∧ w.Stays q p root m ev) (hstep : w.step ev = some w') :
    w'.Waits q p root m c := by
  have hsafe := Sharing.step_safe h.safe hok.1 hstep
  have hnode := h.node.step h.safe hok.2.remains hstep
  cases ev with
  | join r e' =>
    cases hstep
    exact { h with safe := hsafe, node := hnode }
  | leave r =>
    cases hstep
    exact { h with safe := hsafe, node := hnode }
  | node r ev =>
    rw [Sharing.step] at hstep
    split at hstep
    · cases hstep
    · obtain ⟨e', -, rfl⟩ := Option.map_eq_some_iff.mp hstep
      exact { h with safe := hsafe, node := hnode }
  | serve r p' request =>
    rw [Sharing.step] at hstep
    split at hstep
    · cases hstep
    · next e₁ he₁ =>
      cases hstep
      refine ⟨hsafe, hnode, h.client, fun x hx hserver hclient => ?_⟩
      rcases List.mem_cons.mp hx with rfl | hx
      · obtain rfl : r = q := hserver
        obtain rfl : p' = p := hclient
        obtain ⟨e, he, hm⟩ := h.node
        obtain rfl : e = e₁ := Option.some.inj (he.symm.trans he₁)
        exact (h.safe.nodes r e he).fulfils hm (hok.2 rfl rfl e he) request
      · exact h.sent x hx hserver hclient
  | forge message =>
    rw [Sharing.step] at hstep
    split at hstep
    · next hnone =>
      cases hstep
      refine { h with safe := hsafe, node := hnode, sent := fun x hx hserver hclient => ?_ }
      rcases List.mem_cons.mp hx with rfl | hx
      · obtain ⟨e, he, -⟩ := h.node
        rw [hserver, he] at hnone
        cases hnone
      · exact h.sent x hx hserver hclient
    · cases hstep
  | arrive p' root' providers d s =>
    cases hstep
    exact ⟨hsafe, hnode, (Function.update_of_ne (Ne.symm hok.2) _ _).trans h.client,
      fun x hx => h.sent x (List.mem_filter.mp hx).1⟩
  | answer p' a =>
    rw [Sharing.step] at hstep
    split at hstep
    · cases hstep
    · split at hstep
      · obtain ⟨st, -, rfl⟩ := Option.map_eq_some_iff.mp hstep
        exact { h with
          safe := hsafe
          node := hnode
          client := (Function.update_of_ne (Ne.symm hok.2) _ _).trans h.client }
      · cases hstep
  | reshare p' ledger receipts repIdentity now =>
    rw [Sharing.step] at hstep
    split at hstep
    · cases hstep
    · obtain ⟨e', -, rfl⟩ := Option.map_eq_some_iff.mp hstep
      exact { h with
        safe := hsafe
        node := hnode
        client := (Function.update_of_ne (Ne.symm hok.2.2) _ _).trans h.client }

/-- The download gets an answer, after some events that do not concern it. -/
def Sharing.turn (p : Peer) (w : Sharing Peer) (t : List (Sharing.Event Peer) × Answered) :
    Option (Sharing Peer) :=
  (runs Sharing.step w t.1).bind fun w => w.step (.answer p t.2)

/-- The answers of `q` arrive, and what they bring can be written. -/
def Client.Reached (q : Peer) (c : Client Peer) (a : Answered) : Prop :=
  (∀ request, c.asked a = some (q, request) → ∃ r, a.answer = .ok r) ∧
    ∀ bytes, c.download.brought a = some bytes →
      ∃ r, (c.download.store.put c.download.disk bytes).1 = .ok r

/-- The node `q` does its part in the turn. All the others are free. -/
def Sharing.Fair (q p : Peer) (root : Hash) (m : Manifest) (w : Sharing Peer)
    (t : List (Sharing.Event Peer) × Answered) : Prop :=
  Along Sharing.step (fun w ev => w.Ok ev ∧ w.Stays q p root m ev) w t.1 ∧
    ∀ w' c, runs Sharing.step w t.1 = some w' → w'.clients p = some c →
      w'.Ok (.answer p t.2) ∧ c.Reached q t.2

omit [Ed25519] [RaptorQ] [DecidableEq Peer] in
/-- An answer of `q` that fulfils the request is the one that the download hopes for. -/
theorem Client.honest {q : Peer} {m : Manifest} {c : Client Peer} {a : Answered}
    (hsent : ∀ request, c.asked a = some (q, request) → ∃ r, a.answer = .ok r ∧
      r.Fulfils c.root m request)
    (hput : ∀ bytes, c.download.brought a = some bytes →
      ∃ r, (c.download.store.put c.download.disk bytes).1 = .ok r) :
    c.download.HonestStep c.providers q m (· ∈ m.hashes) a := by
  refine ⟨?_, hput⟩
  cases a with
  | manifest a =>
    intro rest hp
    have hasked : c.asked (.manifest a) = some (q, .manifest c.root) := by
      simp only [Client.asked, hp]
    obtain ⟨r, hr, hfulfils⟩ := hsent _ hasked
    obtain ⟨bytes, rfl, hparse⟩ := hfulfils rfl
    exact ⟨bytes, hr, hparse⟩
  | chunk slot a =>
    intro f t hp ht hprovider hlisted
    rw [Fetching.InFlight] at ht
    have hasked : c.asked (.chunk slot a) = some (q, .chunk t.hash) := by
      simp only [Client.asked, hp, ht, Option.bind_some, hprovider, Option.map_some]
    obtain ⟨r, hr, hfulfils⟩ := hsent _ hasked
    obtain ⟨data, rfl, hhash⟩ := hfulfils hlisted
    exact ⟨data, hr, hhash⟩

omit [RaptorQ] [DecidableEq Peer] in
/-- The answer that the download gets from `q` is the one it hopes for. -/
theorem Sharing.Waits.honest {q p : Peer} {root : Hash} {m : Manifest} {c : Client Peer}
    {w : Sharing Peer} {a : Answered} (h : w.Waits q p root m c) (hroot : c.root = root)
    (hreached : c.Reached q a) (hdelivers : w.Delivers p c a) :
    c.download.HonestStep c.providers q m (· ∈ m.hashes) a := by
  refine Client.honest (fun request hasked => ?_) hreached.2
  obtain ⟨r, hr⟩ := hreached.1 request hasked
  rw [Sharing.Delivers, hasked, hr] at hdelivers
  exact ⟨r, hr, hroot ▸ h.sent _ hdelivers rfl rfl⟩

omit [Ed25519] [RaptorQ] in
/-- A download that has not returned can be answered with an error. -/
theorem Client.enabled {c : Client Peer} (h : c.download.phase.Fits c.providers)
    (hr : c.download.result = none) : ∃ a st, a.answer = .error .shutdown ∧
      c.download.step c.root c.providers a = some st := by
  cases hp : c.download.phase with
  | manifest ps =>
    rw [hp] at h
    obtain ⟨p, rest, rfl⟩ := List.exists_cons_of_ne_nil h.1
    refine ⟨.manifest (.error .shutdown), ?_⟩
    simp only [Download.step, hp, getManifest]
    exact ⟨_, rfl, rfl⟩
  | fetching f =>
    rw [hp] at h
    obtain ⟨t, ts, hf⟩ := List.exists_cons_of_ne_nil h.1
    refine ⟨.chunk t.slot (.error .shutdown), ?_⟩
    simp only [Download.step, hp, hf, List.find?_cons, decide_true]
    split
    · exact ⟨_, rfl, rfl⟩
    · exact ⟨_, rfl, rfl⟩
  | returned r receipts =>
    rw [Download.result, hp] at hr
    cases hr

/-- The download of `p` has succeeded; or the manifest that it has accepted lists a chunk that `m`
does not, and the two lists are a collision. -/
def Sharing.Won (p : Peer) (m : Manifest) (w : Sharing Peer) : Prop :=
  ∃ c, w.clients p = some c ∧ c.download.Won m (· ∈ m.hashes)

/-- What a turn finds and leaves. -/
structure Sharing.Hopes (q p : Peer) (root : Hash) (m : Manifest) (w : Sharing Peer)
    (c : Client Peer) : Prop where
  waits : w.Waits q p root m c
  root : c.root = root
  asks : q ∈ c.providers
  hopeful : c.download.phase.Hopeful c.providers q (· ∈ m.hashes)

/-- What a turn does to a download that waits: it gets an answer, which is the hoped-for one if it
is from `q`. -/
theorem Sharing.Waits.turn {q p : Peer} {root : Hash} {m : Manifest} {w w' : Sharing Peer}
    {c : Client Peer} {t : List (Sharing.Event Peer) × Answered} (h : w.Waits q p root m c)
    (hroot : c.root = root) (hfair : w.Fair q p root m t) (hstep : w.turn p t = some w') :
    ∃ st, c.download.HonestStep c.providers q m (· ∈ m.hashes) t.2 ∧
      c.download.step c.root c.providers t.2 = some st ∧
      w'.Waits q p root m { c with download := st } := by
  obtain ⟨evs, a⟩ := t
  obtain ⟨w₁, hrun, hanswer⟩ := Option.bind_eq_some_iff.mp hstep
  have hwaits : w₁.Waits q p root m c :=
    runs_invariant (fun _ _ _ hI hok hs => Sharing.Waits.step hI hok hs) h hfair.1 hrun
  obtain ⟨hok, hreached⟩ := hfair.2 w₁ c hrun hwaits.client
  have hsafe' := Sharing.step_safe hwaits.safe hok hanswer
  rw [Sharing.step, hwaits.client] at hanswer
  dsimp only at hanswer
  split at hanswer
  · next hdelivers =>
    obtain ⟨st, hst, rfl⟩ := Option.map_eq_some_iff.mp hanswer
    exact ⟨st, hwaits.honest hroot hreached hdelivers, hst,
      ⟨hsafe', hwaits.node, Function.update_self _ _ _, hwaits.sent⟩⟩
  · cases hanswer

omit [RaptorQ] [DecidableEq Peer] in
/-- What `q` provides is vetted. -/
theorem Sharing.Waits.vetted {q p : Peer} {root : Hash} {m : Manifest} {w : Sharing Peer}
    {c : Client Peer} (h : w.Waits q p root m c) : m.Vetted root := by
  obtain ⟨e, he, hm⟩ := h.node
  exact ((h.safe.nodes q e he).provides hm).1

/-- One turn brings the end nearer. -/
theorem Sharing.Hopes.turn {q p : Peer} {root : Hash} {m : Manifest} {w w' : Sharing Peer}
    {c : Client Peer} {t : List (Sharing.Event Peer) × Answered} (h : w.Hopes q p root m c)
    (hfair : w.Fair q p root m t) (hstep : w.turn p t = some w') :
    w'.Won p m ∨ ∃ c', w'.Hopes q p root m c' ∧ Prod.Lex (· < ·) (· < ·)
      (c'.download.phase.left c'.providers.length) (c.download.phase.left c.providers.length) := by
  obtain ⟨st, hhonest, hst, hwaits⟩ := h.waits.turn h.root hfair hstep
  have hfits := (h.waits.safe.clients p c h.waits.client).fits
  rcases Download.step_hopeful h.asks (h.root ▸ h.waits.vetted) (fun _ hg => hg) hfits h.hopeful
    hhonest hst with hwon | hhope
  · exact .inl ⟨_, hwaits.client, hwon⟩
  · exact .inr ⟨{ c with download := st }, ⟨hwaits, h.root, h.asks, hhope⟩,
      Download.step_left hfits hst⟩

/-- A download that has not succeeded can always be answered. -/
theorem Sharing.Hopes.enabled {q p : Peer} {root : Hash} {m : Manifest} {w : Sharing Peer}
    {c : Client Peer} (h : w.Hopes q p root m c) (hno : ¬ w.Won p m) :
    ∃ t w', w.turn p t = some w' := by
  have hclient := h.waits.client
  have hresult : c.download.result = none := by
    cases hr : c.download.result with
    | none => rfl
    | some r =>
      have hhope := h.hopeful
      obtain ⟨receipts, hp⟩ := Download.phase_of_result hr
      rw [hp] at hhope
      obtain ⟨m', rfl⟩ := hhope
      exact absurd ⟨c, hclient, .inl ⟨m', hr⟩⟩ hno
  obtain ⟨a, st, ha, hst⟩ :=
    Client.enabled (h.waits.safe.clients p c hclient).fits hresult
  have hdelivers := w.delivers_error p c ha
  refine ⟨([], a), { w with
    clients := Function.update w.clients p (some { c with download := st }) }, ?_⟩
  show w.step (.answer p a) = _
  rw [Sharing.step, hclient]
  dsimp only
  rw [if_pos hdelivers, hst]
  rfl

/-- How much a download of `p` has still to do. -/
def Sharing.left (p : Peer) (w : Sharing Peer) : Nat × Nat :=
  ((w.clients p).map fun c => c.download.phase.left c.providers.length).getD (0, 0)

omit [RaptorQ] [DecidableEq Peer] in
theorem Sharing.Waits.left_eq {q p : Peer} {root : Hash} {m : Manifest} {w : Sharing Peer}
    {c : Client Peer} (h : w.Waits q p root m c) :
    w.left p = c.download.phase.left c.providers.length := by
  rw [Sharing.left, h.client]
  rfl

/-- A download that begins with `q` among its providers has what it needs. -/
theorem Sharing.hopes_arrive {q p : Peer} {root : Hash} {m : Manifest} {w w₁ : Sharing Peer}
    {e : EventLoop Peer} {providers : List Peer} {d : Disk} {s : Store} (hsafe : w.Safe)
    (hq : w.nodes q = some e) (hm : e.Provides root m) (hmem : q ∈ providers) (hs : s.Whole d)
    (harrive : w.step (.arrive p root providers d s) = some w₁) :
    w₁.Hopes q p root m ⟨root, providers, .start providers d s⟩ := by
  have harrives : w.Ok (.arrive p root providers d s) := hs
  have hsafe₁ : w₁.Safe := Sharing.step_safe hsafe harrives harrive
  cases harrive
  refine ⟨⟨hsafe₁, ⟨e, hq, hm⟩, Function.update_self _ _ _, fun x hx _ hclient => ?_⟩, rfl, hmem,
    ?_⟩
  · exact absurd hclient (of_decide_eq_true (List.mem_filter.mp hx).2)
  · show (if providers = [] then Phase.returned (.error .noProviders) ∅ else
      .manifest providers).Hopeful providers q _
    rw [if_neg (List.ne_nil_of_mem hmem)]
    exact hmem

/-- One holder is enough, whoever it has the content from. In any state that the nodes, downloads
and strangers can bring about: a download that begins with a node among its providers that provides
the content id is bound to succeed, as long as this node stays, does not choke it, and its answers
arrive; unless the download has accepted a manifest whose list of chunks is a collision with the
node's. All others may come, leave, serve, choke, lie or be silent in between. -/
theorem download_inevitable {events : List (Sharing.Event Peer)} {w w₁ : Sharing Peer}
    (hok : Along Sharing.step Sharing.Ok Sharing.empty events)
    (hrun : runs Sharing.step Sharing.empty events = some w)
    {q p : Peer} {e : EventLoop Peer} {root : Hash} {m : Manifest} {providers : List Peer}
    {d : Disk} {s : Store} (hq : w.nodes q = some e) (hm : e.Provides root m)
    (hmem : q ∈ providers) (hs : s.Whole d)
    (harrive : w.step (.arrive p root providers d s) = some w₁) :
    Inevitably (Sharing.turn p) (Sharing.Fair q p root m) (Sharing.Won p m) w₁ := by
  refine inevitably_of_measure (I := fun w => ∃ c, w.Hopes q p root m c) (Sharing.left p) ?_ ?_
    ⟨_, Sharing.hopes_arrive (Sharing.safe_of_runs hok hrun) hq hm hmem hs harrive⟩
  · rintro w ⟨c, h⟩ hno
    exact h.enabled hno
  · rintro w t w' ⟨c, h⟩ hfair hstep
    rcases h.turn hfair hstep with hwon | ⟨c', h', hlt⟩
    · exact .inl hwon
    · refine .inr ⟨⟨c', h'⟩, ?_⟩
      rw [h.waits.left_eq, h'.waits.left_eq]
      exact hlt

end

/-! ## A relay -/

/-- The node 0 seeds `x`, the peer 1 downloads it, the node leaves, and the peer seeds it. -/
def relayOfX [Blake3] [FastCDC] [Ed25519] (key : Ed25519.SigningKey) :
    List (Sharing.Event Nat) :=
  let m := Manifest.fromFiles [(dataPath, [120])] none
  [.join 0 (EventLoop.new seedOfX.1 seedOfX.2 ⟨∅⟩ [] key 0),
    .node 0 (.provide m.root m.toNptp),
    .arrive 1 m.root [0] (Disk.fresh ∅ ∅ some) Store.fresh,
    .serve 0 1 (.manifest m.root), .answer 1 (.manifest (.ok (.manifest (some m.toNptp)))),
    .serve 0 1 (.chunk digestOfX), .answer 1 (.chunk 0 (.ok (.chunk (some [120])))),
    .leave 0, .reshare 1 ⟨∅⟩ [] key 0]

/-- An answer of few bytes is as it should be. -/
theorem Sharing.ok_answer [Blake3] [Ed25519] {Peer : Type} (w : Sharing Peer) (p : Peer)
    {a : Answered} (h : ∀ bytes, a.answer = .ok (.chunk (some bytes)) → bytes.length < 2 ^ 32) :
    w.Ok (.answer p a) := by
  intro c _ bytes hb
  unfold Download.brought at hb
  split at hb
  · cases hb
  · next slot a =>
    split at hb
    · split at hb
      · next hfetch =>
        split at hb
        · cases hb
          unfold fetchChunk at hfetch
          split at hfetch
          · cases hfetch
          · cases hfetch
            exact h _ rfl
          · cases hfetch
        · cases hb
      · cases hb
    · cases hb

/-- What the first seed of the relay does is as it should be. -/
theorem relayOfX_ok :
    let _ := blake3OfX
    let _ := minFastCDC
    let _ := ownSignatures
    let _ := oneSymbolCode
    Along Sharing.step Sharing.Ok Sharing.empty (relayOfX (.ofByte 0)) := by
  have hvetted : @Manifest.Vetted blake3OfX rootOfX
      (@Manifest.fromFiles blake3OfX minFastCDC [(dataPath, [120])] none) := by
    refine ⟨?_, ?_, ?_⟩ <;> decide +kernel
  have hparse : @Manifest.fromNptp
      (@Manifest.fromFiles blake3OfX minFastCDC [(dataPath, [120])] none).toNptp =
      .ok (@Manifest.fromFiles blake3OfX minFastCDC [(dataPath, [120])] none) :=
    toOption_eq_some.mp (by decide +kernel)
  have hhashes : (@Manifest.fromFiles blake3OfX minFastCDC [(dataPath, [120])] none).hashes =
      [@Hash.of blake3OfX [120]] := by decide +kernel
  have hstored : (@Store.put blake3OfX (Disk.fresh ∅ ∅ some) Store.fresh [120]).1.toOption =
      some (@Hash.of blake3OfX [120], true) := by decide +kernel
  let _ := blake3OfX
  let _ := minFastCDC
  let _ := ownSignatures
  let _ := oneSymbolCode
  have hput : Store.fresh.put (Disk.fresh ∅ ∅ some) [120] =
      (.ok (Hash.of [120], true), seedOfX.1, seedOfX.2) := by
    have hok := toOption_eq_some.mp hstored
    rw [← hok]
    rfl
  have hwhole : seedOfX.2.Whole seedOfX.1 := (Store.whole_fresh.put (by decide) hput).1
  have hhas : seedOfX.2.Has seedOfX.1 (Hash.of [120]) :=
    Store.whole_fresh.has_of_put (by decide) hput
  refine ⟨EventLoop.tended_new hwhole _ _ _ _, fun w hw => ⟨fun e he => ?_, fun w' _ => ?_⟩⟩
  · cases hw
    have he : some (EventLoop.new seedOfX.1 seedOfX.2 ⟨∅⟩ [] (.ofByte 0) 0) = some e := he
    cases he
    refine ⟨_, hparse, hvetted, fun g hg => ?_⟩
    rw [hhashes, List.mem_singleton] at hg
    rw [hg]
    exact hhas
  · refine (along_of_mem (P := fun ev => ∀ w, Sharing.Ok w ev) w' ?_).mono fun w ev h => h w
    simp only [List.forall_mem_cons, List.not_mem_nil, false_implies, implies_true, and_true]
    refine ⟨fun _ => Store.whole_fresh, fun _ => trivial, fun w => w.ok_answer 1 ?_,
      fun _ => trivial, fun w => w.ok_answer 1 ?_, fun _ => trivial, fun _ => trivial⟩
    · intro bytes hb
      cases hb
    · intro bytes hb
      cases hb
      decide

/-- The relay ends with the peer 1 seeding and the node 0 gone. -/
theorem exists_relayOfX :
    let _ := blake3OfX
    let _ := minFastCDC
    let _ := ownSignatures
    let _ := oneSymbolCode
    let m := Manifest.fromFiles [(dataPath, [120])] none
    ∃ w e, runs Sharing.step Sharing.empty (relayOfX (.ofByte 0)) = some w ∧ w.nodes 0 = none ∧
      w.nodes 1 = some e ∧ e.provided.lookup rootOfX = some m.toNptp ∧ e.Provides rootOfX m := by
  intro _ _ _ _ m
  have hrun : (runs Sharing.step Sharing.empty (relayOfX (.ofByte 0))).map (fun w =>
      ((w.nodes 0).isNone, (w.nodes 1).bind fun e => e.provided.lookup rootOfX)) =
      some (true, some m.toNptp) := by
    decide +kernel
  have hparse : Manifest.fromNptp m.toNptp = .ok m := toOption_eq_some.mp (by decide +kernel)
  obtain ⟨w, hw, hview⟩ := Option.map_eq_some_iff.mp hrun
  obtain ⟨hleft, hprovided⟩ := Prod.mk.inj hview
  obtain ⟨e, he, hl⟩ := Option.bind_eq_some_iff.mp hprovided
  exact ⟨w, e, hw, Option.isNone_iff_eq_none.mp hleft, he, hl, m.toNptp, hl, hparse⟩

/-- The peer that has the content at second hand exports it. -/
theorem relayed_x_is_held :
    let _ := blake3OfX
    let _ := minFastCDC
    let _ := ownSignatures
    let _ := oneSymbolCode
    ∃ w e m, runs Sharing.step Sharing.empty (relayOfX (.ofByte 0)) = some w ∧
      w.nodes 0 = none ∧ w.nodes 1 = some e ∧ (∀ h ∈ m.hashes, e.store.Reads e.disk h) ∧
      ∃ out s', Store.exportTo e.disk e.store m = (.ok (), out, s') ∧
        (out = [120] ∨ ∃ written : List Bytes, out = written.flatten ∧
          Collision Hash.of (merkleStrings m.hashes ++ written)
            (merkleStrings (Manifest.fromFiles [(dataPath, [120])] none).hashes ++
              treePieces [(dataPath, [120])])) := by
  intro _ _ _ _
  obtain ⟨w, e, hrun, hleft, he, hl, -⟩ := exists_relayOfX
  have hroot : (Manifest.fromFiles [(dataPath, [120])] none).root = rootOfX := by decide +kernel
  obtain ⟨hnodes, hholders⟩ := holders_have_content relayOfX_ok hrun
  obtain ⟨m, -, hholder⟩ := hnodes 1 e rootOfX _ he hl
  obtain ⟨hreads, hexport⟩ := hholders rootOfX m _ _ hholder
  exact ⟨w, e, m, hrun, hleft, he, hreads, hexport [(dataPath, [120])] none hroot⟩

/-- The peer 2 comes when the first seed is gone, knows both, and is bound to get the content. -/
theorem relayed_x_is_downloaded :
    let _ := blake3OfX
    let _ := minFastCDC
    let _ := ownSignatures
    let _ := oneSymbolCode
    let m := Manifest.fromFiles [(dataPath, [120])] none
    ∃ w w₁, runs Sharing.step Sharing.empty (relayOfX (.ofByte 0)) = some w ∧ w.nodes 0 = none ∧
      w.step (.arrive 2 rootOfX [0, 1] (Disk.fresh ∅ ∅ some) Store.fresh) = some w₁ ∧
      Inevitably (Sharing.turn 2) (Sharing.Fair 1 2 rootOfX m) (Sharing.Won 2 m) w₁ := by
  intro _ _ _ _ m
  obtain ⟨w, e, hrun, hleft, he, -, hm⟩ := exists_relayOfX
  exact ⟨w, _, hrun, hleft, rfl, download_inevitable relayOfX_ok hrun he hm (by decide)
    Store.whole_fresh rfl⟩

end Np2ptp
