import Np2ptp.Net.Choke

/-!
# Requests in flight

A node with the swarm's side of its requests: which of them are in flight, and to whom. `libp2p`
answers a request at most once, by the peer that it was sent to or with a failure, and may do so
after the peer was lost and found again; nothing else is assumed of the order of events.
-/

namespace Np2ptp

open Lib

/-- A node and the requests that may still be answered, each with the peer it was sent to. -/
structure Swarm (Peer : Type) [Ed25519] where
  node : EventLoop Peer
  inFlight : HashMap Nat Peer

section

variable [Blake3] [Ed25519] [RaptorQ] {Peer : Type} [DecidableEq Peer]

/-- The requests in flight after an event that may have sent one to the peer. -/
def Swarm.sent (w : Swarm Peer) (peer : Peer) (node : EventLoop Peer) : Swarm Peer :=
  { node := node
    inFlight := if node.nextRequest = w.node.nextRequest then w.inFlight
      else w.inFlight.insert w.node.nextRequest peer }

/-- One event. -/
def Swarm.step (w : Swarm Peer) (ev : NodeEvent Peer) : Option (Swarm Peer) :=
  match ev with
  | .response peer id _ =>
    if w.inFlight.lookup id = some peer then
      (w.node.step ev).map fun node => ⟨node, w.inFlight.erase id⟩
    else none
  | .outboundFailure id =>
    if id ∈ w.inFlight then (w.node.step ev).map fun node => ⟨node, w.inFlight.erase id⟩
    else none
  | .identified peer _ => (w.node.step ev).map (w.sent peer)
  | .sendRequest peer _ => (w.node.step ev).map (w.sent peer)
  | .submitReceipt peer _ => (w.node.step ev).map (w.sent peer)
  | _ => (w.node.step ev).map fun node => ⟨node, w.inFlight⟩

/-- The node takes the event as it would alone. -/
theorem Swarm.step_node {w w' : Swarm Peer} {ev : NodeEvent Peer} (h : w.step ev = some w') :
    w.node.step ev = some w'.node := by
  unfold Swarm.step at h
  split at h
  · split at h
    · obtain ⟨node, hn, rfl⟩ := Option.map_eq_some_iff.mp h
      exact hn
    · cases h
  · split at h
    · obtain ⟨node, hn, rfl⟩ := Option.map_eq_some_iff.mp h
      exact hn
    · cases h
  all_goals
    obtain ⟨node, hn, rfl⟩ := Option.map_eq_some_iff.mp h
    exact hn

/-! ## Pulls -/

/-- The `GetReceipts` requests to the peer that are in flight. -/
def Swarm.pulls (w : Swarm Peer) (p : Peer) : Finset Nat :=
  w.node.pendingInternal.keys.filter fun id =>
    w.node.pendingInternal.lookup id = some .getReceipts ∧ w.inFlight.lookup id = some p

omit [Blake3] [RaptorQ] in
theorem Swarm.mem_pulls {w : Swarm Peer} {p : Peer} {id : Nat} : id ∈ w.pulls p ↔
    w.node.pendingInternal.lookup id = some .getReceipts ∧ w.inFlight.lookup id = some p := by
  rw [Swarm.pulls, Finset.mem_filter, Finmap.mem_keys]
  refine ⟨And.right, fun h => ⟨?_, h⟩⟩
  rw [← Finmap.lookup_isSome, h.1]
  rfl

/-- The event makes the node ask the peer for its receipts. -/
def EventLoop.Pulls (p : Peer) (e : EventLoop Peer) : NodeEvent Peer → Prop
  | .identified q _ => q = p ∧ p ∉ e.receiptsPulledFrom ∧ e.ledger.counters p = .default
  | _ => False

instance EventLoop.decidablePulls (p : Peer) (e : EventLoop Peer) :
    ∀ ev : NodeEvent Peer, Decidable (e.Pulls p ev)
  | .identified q _ => inferInstanceAs (Decidable (q = p ∧ p ∉ e.receiptsPulledFrom ∧
      e.ledger.counters p = .default))
  | .request .. | .response .. | .outboundFailure _ | .connectionClosed _ | .provide ..
  | .unprovide _ | .setChokeThreshold _ | .sendRequest .. | .submitReceipt .. | .saveTick _
  | .storage .. => .isFalse id

/-- The numbers of all requests that the node waits for are used up. -/
def EventLoop.Numbered (e : EventLoop Peer) : Prop := ∀ id ∈ e.pendingInternal, id < e.nextRequest

omit [Blake3] [RaptorQ] [DecidableEq Peer] in
theorem EventLoop.lookup_of_erase {e : EventLoop Peer} {id id' : Nat} {r : InternalRequest}
    (h : (e.pendingInternal.erase id').lookup id = some r) :
    id ≠ id' ∧ e.pendingInternal.lookup id = some r := by
  by_cases he : id = id'
  · rw [he, Finmap.lookup_erase] at h
    cases h
  · exact ⟨he, by rwa [Finmap.lookup_erase_ne he] at h⟩

/-- What the node waits for after an event it waited for before, or has just asked. -/
theorem EventLoop.step_pending {e e' : EventLoop Peer} {ev : NodeEvent Peer}
    (h : e.step ev = some e') {id : Nat} {r : InternalRequest}
    (hid : e'.pendingInternal.lookup id = some r) :
    e.pendingInternal.lookup id = some r ∨ (id = e.nextRequest ∧
      e'.nextRequest = e.nextRequest + 1 ∧ (r = .getReceipts → ∃ q, e.Pulls q ev)) := by
  cases ev with
  | request q request =>
    cases h
    obtain ⟨s, symbols, ledger, dirty, receipts, h⟩ := e.serve_frame q request
    rw [h] at hid
    exact .inl hid
  | response q id' response =>
    cases h
    obtain ⟨ledger, dirty, h⟩ := e.onResponse_frame q id' response
    rw [h] at hid
    exact .inl (EventLoop.lookup_of_erase hid).2
  | outboundFailure id' =>
    cases h
    exact .inl (EventLoop.lookup_of_erase hid).2
  | identified q key =>
    cases h
    unfold EventLoop.onIdentified at hid ⊢
    dsimp only at hid ⊢
    split at hid
    · next hp =>
      rw [if_pos hp]
      by_cases he : id = e.nextRequest
      · exact .inr ⟨he, rfl, fun _ => ⟨q, rfl, hp⟩⟩
      · exact .inl (by rwa [Finmap.lookup_insert_of_ne _ he] at hid)
    · exact .inl hid
  | submitReceipt q bytes =>
    rw [EventLoop.step] at h
    split at h
    · cases h
      exact .inl hid
    · cases h
      by_cases he : id = e.nextRequest
      · rw [he, Finmap.lookup_insert] at hid
        cases hid
        exact .inr ⟨he, rfl, fun hr => by cases hr⟩
      · exact .inl (by rwa [Finmap.lookup_insert_of_ne _ he] at hid)
  | saveTick saved =>
    obtain ⟨dirty, rfl⟩ := EventLoop.saveTick_frame h
    exact .inl hid
  | _ =>
    cases h
    exact .inl hid

theorem EventLoop.step_nextRequest {e e' : EventLoop Peer} {ev : NodeEvent Peer}
    (h : e.step ev = some e') : e.nextRequest ≤ e'.nextRequest := by
  cases ev with
  | request q request =>
    cases h
    obtain ⟨s, symbols, ledger, dirty, receipts, h⟩ := e.serve_frame q request
    rw [h]
  | response q id response =>
    cases h
    obtain ⟨ledger, dirty, h⟩ := e.onResponse_frame q id response
    rw [h]
  | identified q key =>
    cases h
    unfold EventLoop.onIdentified
    dsimp only
    split
    · exact Nat.le_succ _
    · exact Nat.le_refl _
  | submitReceipt q bytes =>
    rw [EventLoop.step] at h
    split at h <;> cases h
    · exact Nat.le_refl _
    · exact Nat.le_succ _
  | sendRequest q request => cases h; exact Nat.le_succ _
  | saveTick saved =>
    obtain ⟨dirty, rfl⟩ := EventLoop.saveTick_frame h
    exact Nat.le_refl _
  | _ => cases h; exact Nat.le_refl _

theorem EventLoop.step_numbered {e e' : EventLoop Peer} {ev : NodeEvent Peer}
    (hn : e.Numbered) (h : e.step ev = some e') : e'.Numbered := by
  intro id hid
  obtain ⟨r, hr⟩ := Finmap.mem_iff.mp hid
  have hle := EventLoop.step_nextRequest h
  rcases EventLoop.step_pending h hr with hold | ⟨rfl, hnext, -⟩
  · exact (hn id (Finmap.mem_iff.mpr ⟨r, hold⟩)).trans_le hle
  · omega

/-- A request that is in flight after an event was so before, or has just been sent. -/
theorem Swarm.step_inFlight {w w' : Swarm Peer} {ev : NodeEvent Peer} (h : w.step ev = some w')
    {id : Nat} {p : Peer} (hid : w'.inFlight.lookup id = some p) :
    w.inFlight.lookup id = some p ∨ (id = w.node.nextRequest ∧
      w'.node.nextRequest ≠ w.node.nextRequest ∧ ∀ q, w.node.Pulls q ev → q = p) := by
  have hsent (q : Peer) (hq : ∀ q', w.node.Pulls q' ev → q' = q)
      (h : (w.node.step ev).map (w.sent q) = some w') :
      w.inFlight.lookup id = some p ∨ (id = w.node.nextRequest ∧
        w'.node.nextRequest ≠ w.node.nextRequest ∧ ∀ q, w.node.Pulls q ev → q = p) := by
    obtain ⟨node, -, rfl⟩ := Option.map_eq_some_iff.mp h
    unfold Swarm.sent at hid
    dsimp only at hid
    split at hid
    · exact .inl hid
    · next hnext =>
      by_cases he : id = w.node.nextRequest
      · rw [he, Finmap.lookup_insert] at hid
        cases hid
        exact .inr ⟨he, hnext, hq⟩
      · exact .inl (by rwa [Finmap.lookup_insert_of_ne _ he] at hid)
  have herase (id' : Nat) (hid : (w.inFlight.erase id').lookup id = some p) :
      w.inFlight.lookup id = some p := by
    by_cases he : id = id'
    · rw [he, Finmap.lookup_erase] at hid
      cases hid
    · rwa [Finmap.lookup_erase_ne he] at hid
  cases ev with
  | response q id' response =>
    rw [Swarm.step] at h
    split at h
    · obtain ⟨node, -, rfl⟩ := Option.map_eq_some_iff.mp h
      exact .inl (herase id' hid)
    · cases h
  | outboundFailure id' =>
    rw [Swarm.step] at h
    split at h
    · obtain ⟨node, -, rfl⟩ := Option.map_eq_some_iff.mp h
      exact .inl (herase id' hid)
    · cases h
  | identified q key => exact hsent q (fun q' hq' => hq'.1.symm) h
  | sendRequest q request => exact hsent q (fun q' hq' => hq'.elim) h
  | submitReceipt q bytes => exact hsent q (fun q' hq' => hq'.elim) h
  | _ =>
    unfold Swarm.step at h
    obtain ⟨node, -, rfl⟩ := Option.map_eq_some_iff.mp h
    exact .inl hid

/-- The numbers of all requests, those that the node waits for and those in flight, are used up. -/
structure Swarm.Numbered (w : Swarm Peer) : Prop where
  node : w.node.Numbered
  inFlight : ∀ id p, w.inFlight.lookup id = some p → id < w.node.nextRequest

theorem Swarm.step_numbered {w w' : Swarm Peer} {ev : NodeEvent Peer} (hn : w.Numbered)
    (h : w.step ev = some w') : w'.Numbered where
  node := EventLoop.step_numbered hn.node (Swarm.step_node h)
  inFlight id p hid := by
    have hle := EventLoop.step_nextRequest (Swarm.step_node h)
    rcases Swarm.step_inFlight h hid with hold | ⟨rfl, hne, -⟩
    · exact (hn.inFlight id p hold).trans_le hle
    · omega

/-- A pull in flight after an event was so before, or the event has just sent it. -/
theorem Swarm.step_pulls {w w' : Swarm Peer} {ev : NodeEvent Peer} (hn : w.Numbered)
    (h : w.step ev = some w') {p : Peer} {id : Nat} (hid : id ∈ w'.pulls p) :
    id ∈ w.pulls p ∨ (id = w.node.nextRequest ∧ w.node.Pulls p ev) := by
  obtain ⟨hpending, hflight⟩ := Swarm.mem_pulls.mp hid
  rcases EventLoop.step_pending (Swarm.step_node h) hpending with hold | ⟨rfl, -, hpull⟩
  · have hlt := hn.node id (Finmap.mem_iff.mpr ⟨_, hold⟩)
    rcases Swarm.step_inFlight h hflight with hf | ⟨he, -⟩
    · exact .inl (Swarm.mem_pulls.mpr ⟨hold, hf⟩)
    · exact absurd he (Nat.ne_of_lt hlt)
  · obtain ⟨q, hq⟩ := hpull rfl
    rcases Swarm.step_inFlight h hflight with hf | ⟨-, -, hp⟩
    · exact absurd (hn.inFlight _ _ hf) (Nat.lt_irrefl _)
    · exact .inr ⟨rfl, hp q hq ▸ hq⟩

/-- A pull that has been answered is not in flight any more. -/
theorem Swarm.notMem_pulls_of_response {w w' : Swarm Peer} {q p : Peer} {id : Nat}
    {response : Net.Response} (h : w.step (.response q id response) = some w') :
    id ∉ w'.pulls p := by
  intro hid
  have hnode := Option.some.inj (Swarm.step_node h)
  have hpending := (Swarm.mem_pulls.mp hid).1
  obtain ⟨ledger, dirty, hframe⟩ := w.node.onResponse_frame q id response
  rw [← hnode, hframe] at hpending
  exact (EventLoop.lookup_of_erase hpending).1 rfl

end

end Np2ptp
