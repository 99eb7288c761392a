import Mathlib.Data.List.Sort
import Np2ptp.Fec.RaptorQ
import Np2ptp.Net.Protocol
import Np2ptp.Rep.Ledger
import Np2ptp.Store.Handle

/-!
# A node

`EventLoop`, the task that answers the requests of other peers, and the events that change what it
keeps: requests and responses, peers identified and lost, and the commands of the local user. The
swarm is what the events come from. Left out are what only the swarm or the caller sees: addresses,
the Kademlia queries, and the channels that answers to a local request go back through.
-/

namespace Np2ptp

open Lib

/-- `MAX_RECEIPTS`. -/
def MAX_RECEIPTS : Nat := 50

/-- `ReceiptBag::insert`: the receipts of most bytes are kept; `sort_by_key` is stable. -/
def ReceiptBag.insert (receipts : List Receipt) (r : Receipt) : List Receipt :=
  if r ∈ receipts then receipts
  else ((receipts ++ [r]).insertionSort fun a b => b.bytes ≤ a.bytes).take MAX_RECEIPTS

/-- `InternalRequest`. -/
inductive InternalRequest where
  | getReceipts
  | submitReceiptAck
  deriving DecidableEq

/-- `EventLoop`. -/
structure EventLoop (Peer : Type) [Ed25519] where
  disk : Disk
  store : Store
  provided : HashMap Hash Bytes
  ledger : Ledger Peer
  ledgerDirty : Bool
  chokeThreshold : Int64
  repIdentity : Ed25519.SigningKey
  repPeers : HashMap Peer RepPeerId
  receiptsPulledFrom : Finset Peer
  pendingInternal : HashMap Nat InternalRequest
  receipts : List Receipt
  symbols : HashMap Hash (List Bytes)
  nextReceiptEpoch : UInt64
  /-- The id that the swarm gives the next request. -/
  nextRequest : Nat

/-- `EventLoop::new`, at a time when the clock shows `now` seconds. Nothing is choked until it is
configured. -/
def EventLoop.new {Peer : Type} [Ed25519] (disk : Disk) (store : Store) (ledger : Ledger Peer)
    (receipts : List Receipt) (repIdentity : Ed25519.SigningKey) (now : UInt64) :
    EventLoop Peer where
  disk := disk
  store := store
  provided := ∅
  ledger := ledger
  ledgerDirty := false
  chokeThreshold := Int64.maxValue
  repIdentity := repIdentity
  repPeers := ∅
  receiptsPulledFrom := ∅
  pendingInternal := ∅
  receipts := receipts
  symbols := ∅
  nextReceiptEpoch := now
  nextRequest := 0

/-- What happens to a node. -/
inductive NodeEvent (Peer : Type) where
  | request (peer : Peer) (request : Net.Request)
  | response (peer : Peer) (id : Nat) (response : Net.Response)
  | outboundFailure (id : Nat)
  /-- The `identify` protocol has told the peer's Ed25519 key. -/
  | identified (peer : Peer) (key : RepPeerId)
  /-- The last connection to the peer is closed. -/
  | connectionClosed (peer : Peer)
  | provide (root : Hash) (manifestBytes : Bytes)
  | unprovide (root : Hash)
  | setChokeThreshold (threshold : Int64)
  /-- The command to send a request; its answer goes to the caller. -/
  | sendRequest (peer : Peer) (request : Net.Request)
  | submitReceipt (peer : Peer) (bytes : UInt64)
  | saveTick (saved : Bool)
  /-- What other users of the store leave of it. -/
  | storage (d : Disk) (s : Store)

section

variable [Blake3] [Ed25519] [RaptorQ] {Peer : Type} [DecidableEq Peer]

/-! ## Symbols -/

/-- `|h| store.get(h).ok().flatten()`. -/
def Store.getFlat (d : Disk) (s : Store) (h : Hash) : Option Bytes × Store :=
  match s.get d h with
  | (.ok opt, s) => (opt, s)
  | (.error _, s) => (none, s)

/-- `ensure_symbols`. -/
def EventLoop.ensureSymbols (e : EventLoop Peer) (root : Hash) : Bool × EventLoop Peer :=
  if root ∈ e.symbols then (true, e)
  else
    match e.provided.lookup root with
    | none => (false, e)
    | some manifestBytes =>
      match Manifest.fromNptp manifestBytes with
      | .error _ => (false, e)
      | .ok manifest =>
        match manifest.reconstruct (Store.getFlat e.disk) e.store with
        | (.error _, s) => (false, { e with store := s })
        | (.ok full, s) =>
          (true, { e with
            store := s
            symbols := e.symbols.insert root (Fec.encode full FEC_REPAIR_SYMBOLS).symbols })

/-- `symbol`. -/
def EventLoop.symbol (e : EventLoop Peer) (root : Hash) (index : Nat) :
    Option Bytes × EventLoop Peer :=
  match e.ensureSymbols root with
  | (false, e) => (none, e)
  | (true, e) => ((e.symbols.lookup root).bind fun all => all[index]?, e)

/-- The slice that `symbols_range` cuts out of a symbol set. -/
def symbolsIn (all : List Bytes) (start count : Nat) : List Bytes :=
  if all.length ≤ start then []
  else (all.drop start).take (min (start + count) all.length - start)

/-- `symbols_range`. -/
def EventLoop.symbolsRange (e : EventLoop Peer) (root : Hash) (start count : Nat) :
    List Bytes × EventLoop Peer :=
  match e.ensureSymbols root with
  | (false, e) => ([], e)
  | (true, e) => (symbolsIn ((e.symbols.lookup root).getD []) start count, e)

/-! ## Answering -/

/-- `record_served` and the flag that the ledger has changed. -/
def EventLoop.recordServed (e : EventLoop Peer) (peer : Peer) (bytes : Nat) : EventLoop Peer :=
  { e with ledger := e.ledger.recordServed peer bytes, ledgerDirty := true }

/-- The test that chokes a peer. -/
def EventLoop.chokes (e : EventLoop Peer) (peer : Peer) : Bool :=
  decide (e.ledger.reputation peer < saturatingNeg e.chokeThreshold)

/-- `serve`. -/
def EventLoop.serve (e : EventLoop Peer) (peer : Peer) :
    Net.Request → Net.Response × EventLoop Peer
  | .manifest root => (.manifest (e.provided.lookup root), e)
  | .chunk hash =>
    if e.chokes peer then (.chunk none, e)
    else
      match e.store.get e.disk hash with
      | (.ok (some data), s) =>
        (.chunk (some data), ({ e with store := s } : EventLoop Peer).recordServed peer data.length)
      | (.ok none, s) => (.chunk none, { e with store := s })
      | (.error _, s) => (.chunk none, { e with store := s })
  | .symbol root index =>
    match e.symbol root index.toNat with
    | (some bytes, e) => (.symbol (some bytes), e.recordServed peer bytes.length)
    | (none, e) => (.symbol none, e)
  | .symbols root start count =>
    let count := (min count MAX_SYMBOLS_PER_BATCH).toNat
    let (syms, e) := e.symbolsRange root start.toNat count
    let served := (syms.map List.length).sum
    (.symbols syms, if 0 < served then e.recordServed peer served else e)
  | .submitReceipt receipt =>
    if receipt.verify ∧ receipt.server = Ed25519.verifyingKey e.repIdentity ∧
        receipt.client ≠ receipt.server then
      (.receiptAck, { e with receipts := ReceiptBag.insert e.receipts receipt })
    else (.receiptAck, e)
  | .getReceipts => (.receipts e.receipts, e)

/-! ## Everything else -/

/-- The receipts among some that are credited to a peer: they verify, they are about its key
`server`, and their client and epoch have not occurred before. -/
def creditable (server : RepPeerId) : List (RepPeerId × UInt64) → List Receipt → List Receipt
  | _, [] => []
  | seen, r :: receipts =>
    if r.verify ∧ r.server = server ∧ (r.client, r.epoch) ∉ seen then
      r :: creditable server ((r.client, r.epoch) :: seen) receipts
    else creditable server seen receipts

/-- `handle_receipts_response`. -/
def EventLoop.handleReceiptsResponse (e : EventLoop Peer) (peer : Peer) :
    Net.Response → EventLoop Peer
  | .receipts receipts =>
    match e.repPeers.lookup peer with
    | none => e
    | some expectedServer =>
      { e with
        ledger := (creditable expectedServer [] receipts).foldl
          (fun l r => l.creditReceipt peer r.bytes) e.ledger }
  | _ => e

/-- The front of the response branch of `on_rr`: a chunk is credited to the peer that sent it. -/
def EventLoop.creditChunk (e : EventLoop Peer) (peer : Peer) : Net.Response → EventLoop Peer
  | .chunk (some data) =>
    { e with ledger := e.ledger.recordReceived peer data.length, ledgerDirty := true }
  | _ => e

/-- The response branch of `on_rr`. -/
def EventLoop.onResponse (e : EventLoop Peer) (peer : Peer) (id : Nat) (response : Net.Response) :
    EventLoop Peer :=
  let e := e.creditChunk peer response
  let pending := e.pendingInternal.lookup id
  let e := { e with pendingInternal := e.pendingInternal.erase id }
  match pending with
  | some .getReceipts => e.handleReceiptsResponse peer response
  | some .submitReceiptAck => e
  | none => e

/-- The `identify` branch of `on_event`. -/
def EventLoop.onIdentified (e : EventLoop Peer) (peer : Peer) (key : RepPeerId) : EventLoop Peer :=
  let e := { e with repPeers := e.repPeers.insert peer key }
  if peer ∉ e.receiptsPulledFrom ∧ e.ledger.counters peer = .default then
    { e with
      receiptsPulledFrom := insert peer e.receiptsPulledFrom
      pendingInternal := e.pendingInternal.insert e.nextRequest .getReceipts
      nextRequest := e.nextRequest + 1 }
  else e

/-- One event. -/
def EventLoop.step (e : EventLoop Peer) : NodeEvent Peer → Option (EventLoop Peer)
  | .request peer request => some (e.serve peer request).2
  | .response peer id response => some (e.onResponse peer id response)
  | .outboundFailure id => some { e with pendingInternal := e.pendingInternal.erase id }
  | .identified peer key => some (e.onIdentified peer key)
  | .connectionClosed peer => some { e with
      repPeers := e.repPeers.erase peer
      receiptsPulledFrom := e.receiptsPulledFrom.erase peer }
  | .provide root manifestBytes => some { e with
      provided := e.provided.insert root manifestBytes }
  | .unprovide root => some { e with
      provided := e.provided.erase root
      symbols := e.symbols.erase root }
  | .setChokeThreshold threshold => some { e with chokeThreshold := threshold }
  | .sendRequest _ _ => some { e with nextRequest := e.nextRequest + 1 }
  | .submitReceipt peer _ =>
    match e.repPeers.lookup peer with
    | none => some e
    | some _ => some { e with
        nextReceiptEpoch := e.nextReceiptEpoch + 1
        pendingInternal := e.pendingInternal.insert e.nextRequest .submitReceiptAck
        nextRequest := e.nextRequest + 1 }
  | .saveTick saved =>
    if e.ledgerDirty then some { e with ledgerDirty := !saved } else some e
  | .storage d s => some { e with disk := d, store := s }

/-- The receipt that an event makes the node send, and to whom: the command to submit one to an
identified peer. -/
def EventLoop.issued (e : EventLoop Peer) : NodeEvent Peer → Option (Peer × Receipt)
  | .submitReceipt peer bytes => (e.repPeers.lookup peer).map fun server =>
      (peer, Receipt.issue e.repIdentity server bytes e.nextReceiptEpoch)
  | _ => none

end

end Np2ptp
