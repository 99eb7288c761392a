import Mathlib.Algebra.Order.BigOperators.Group.List
import Np2ptp.Net.Swarm

/-!
# Who vouches for a peer

A peer is credited for receipts only when it answers a `GetReceipts` request, and it chooses the
list it answers with. What the code asks of a receipt there is that it verifies and names the peer
as its server, but not that somebody else signed it (`vouched_by_others_iff`); that test is made
where a node accepts receipts about itself. Two answers credit the same receipt when two requests
are in flight at once. Requests in flight are the swarm's matter, so `Swarm` adds them to a node:
as long as a peer is asked again only after it has answered, each receipt is credited once
(`credited_at_most_once`).
-/

namespace Np2ptp

open Lib

/-! ## What one answer is credited for -/

section

variable [Ed25519]

/-- A credited receipt was in the answer, verifies, and is about the peer. -/
theorem of_mem_creditable {server : RepPeerId} {r : Receipt} : ∀ {seen : List (RepPeerId × UInt64)}
    {receipts : List Receipt}, r ∈ creditable server seen receipts →
    r ∈ receipts ∧ r.verify = true ∧ r.server = server ∧ (r.client, r.epoch) ∉ seen
  | _, [], h => by cases h
  | seen, q :: receipts, h => by
    rw [creditable] at h
    split at h
    · next hq =>
      rcases List.mem_cons.mp h with rfl | h
      · exact ⟨List.mem_cons_self, hq⟩
      · obtain ⟨hm, hv, hs, hseen⟩ := of_mem_creditable h
        exact ⟨List.mem_cons_of_mem _ hm, hv, hs, fun hs' => hseen (List.mem_cons_of_mem _ hs')⟩
    · obtain ⟨hm, hrest⟩ := of_mem_creditable h
      exact ⟨List.mem_cons_of_mem _ hm, hrest⟩

/-- Every receipt that could be credited is, or another of its client and epoch. -/
theorem exists_creditable {server : RepPeerId} {r : Receipt} (hv : r.verify = true)
    (hs : r.server = server) : ∀ {seen : List (RepPeerId × UInt64)} {receipts : List Receipt},
    r ∈ receipts → (r.client, r.epoch) ∈ seen ∨
      ∃ q ∈ creditable server seen receipts, q.client = r.client
  | _, [], h => by cases h
  | seen, q :: receipts, h => by
    by_cases hseen : (r.client, r.epoch) ∈ seen
    · exact .inl hseen
    right
    rw [creditable]
    rcases List.mem_cons.mp h with rfl | h
    · rw [if_pos ⟨hv, hs, hseen⟩]
      exact ⟨r, List.mem_cons_self, rfl⟩
    · split
      · rcases (exists_creditable hv hs h :
          (r.client, r.epoch) ∈ (q.client, q.epoch) :: seen ∨ _) with hq | ⟨t, ht, he⟩
        · rcases List.mem_cons.mp hq with heq | hq
          · exact ⟨q, List.mem_cons_self, (Prod.mk.inj heq).1.symm⟩
          · exact absurd hq hseen
        · exact ⟨t, List.mem_cons_of_mem _ ht, he⟩
      · exact (exists_creditable hv hs h).resolve_left hseen

/-- Within one answer a client and an epoch are credited once. -/
theorem nodup_creditable (server : RepPeerId) : ∀ (seen : List (RepPeerId × UInt64))
    (receipts : List Receipt),
    ((creditable server seen receipts).map fun r => (r.client, r.epoch)).Nodup
  | _, [] => List.nodup_nil
  | seen, q :: receipts => by
    rw [creditable]
    split
    · rw [List.map_cons, List.nodup_cons]
      refine ⟨fun hm => ?_, nodup_creditable server _ receipts⟩
      obtain ⟨r, hr, he⟩ := List.mem_map.mp hm
      exact (of_mem_creditable hr).2.2.2 (he ▸ List.mem_cons_self)
    · exact nodup_creditable server seen receipts

variable {Peer : Type} [DecidableEq Peer]

/-- A peer is credited for what it answers a `GetReceipts` request with, while its key is known. -/
theorem EventLoop.of_mem_receiptsFor {p : Peer} {e : EventLoop Peer} {ev : NodeEvent Peer}
    {r : Receipt} (h : r ∈ e.receiptsFor p ev) : ∃ id receipts key,
    ev = .response p id (.receipts receipts) ∧ e.pendingInternal.lookup id = some .getReceipts ∧
      e.repPeers.lookup p = some key ∧ e.receiptsFor p ev = creditable key [] receipts := by
  unfold EventLoop.receiptsFor at h
  split at h
  · next q id receipts =>
    split at h
    · next hq =>
      obtain ⟨rfl, hpending⟩ := hq
      split at h
      · cases h
      · next key hkey =>
        refine ⟨id, receipts, key, rfl, hpending, hkey, ?_⟩
        simp only [EventLoop.receiptsFor, hpending, hkey, and_self, if_true]
    · cases h
  · cases h

/-! ## Vouching for oneself -/

/-- The credit of the event comes from others: each receipt verifies, names the peer as its server
by the key that it has told, and is signed with another key. -/
def EventLoop.VouchedByOthers (p : Peer) (e : EventLoop Peer) (ev : NodeEvent Peer) : Prop :=
  ∀ r ∈ e.receiptsFor p ev,
    r.verify = true ∧ e.repPeers.lookup p = some r.server ∧ r.client ≠ r.server

/-- The event is no answer of the peer to a `GetReceipts` request with a receipt in it that the peer
itself signed about itself. -/
def EventLoop.NoSelfReceipt (p : Peer) (e : EventLoop Peer) : NodeEvent Peer → Prop
  | .response q id (.receipts receipts) =>
    q = p → e.pendingInternal.lookup id = some .getReceipts → ∀ key ∈ e.repPeers.lookup p,
      ∀ r ∈ receipts, r.verify = true → r.server = key → r.client ≠ key
  | _ => True

/-- One event credits what others vouch for unless it brings a receipt of the peer about itself. -/
theorem EventLoop.vouchedByOthers_iff (p : Peer) (e : EventLoop Peer) (ev : NodeEvent Peer) :
    e.VouchedByOthers p ev ↔ e.NoSelfReceipt p ev := by
  constructor
  · intro h
    unfold EventLoop.NoSelfReceipt
    split
    · next q id receipts =>
      rintro rfl hpending key hkey r hr hv hs hself
      have heq : e.receiptsFor q (.response q id (.receipts receipts)) =
          creditable key [] receipts := by
        simp only [EventLoop.receiptsFor, hpending, Option.mem_def.mp hkey, and_self, if_true]
      rcases (exists_creditable hv hs hr : (r.client, r.epoch) ∈ [] ∨ _) with
        hnil | ⟨t, ht, hclient⟩
      · cases hnil
      · have hserver := (of_mem_creditable ht).2.2.1
        exact (h t (heq ▸ ht)).2.2 (by rw [hclient, hself, hserver])
    · trivial
  · intro h r hr
    obtain ⟨id, receipts, key, rfl, hpending, hkey, heq⟩ := EventLoop.of_mem_receiptsFor hr
    rw [heq] at hr
    obtain ⟨hm, hv, hs, -⟩ := of_mem_creditable hr
    exact ⟨hv, hs ▸ hkey, hs ▸ h rfl hpending key hkey r hm hv hs⟩

instance EventLoop.decidableVouchedByOthers (p : Peer) (e : EventLoop Peer) (ev : NodeEvent Peer) :
    Decidable (e.VouchedByOthers p ev) :=
  inferInstanceAs (Decidable (∀ r ∈ e.receiptsFor p ev,
    r.verify = true ∧ e.repPeers.lookup p = some r.server ∧ r.client ≠ r.server))

instance EventLoop.decidableNoSelfReceipt (p : Peer) (e : EventLoop Peer) (ev : NodeEvent Peer) :
    Decidable (e.NoSelfReceipt p ev) :=
  decidable_of_iff _ (e.vouchedByOthers_iff p ev)

variable [Blake3] [RaptorQ]

/-- Credit comes from others, along a whole run, if and only if none of its answers has a receipt of
the peer about itself: the credit of a peer grows by the bytes of some receipts, each of which
verifies, names the peer as its server and is signed with another key. -/
theorem vouched_by_others_iff {p : Peer} {e e' : EventLoop Peer} {events : List (NodeEvent Peer)}
    (hrun : runs EventLoop.step e events = some e') :
    ((e'.ledger.counters p).creditedByReceipts.toNat =
        min ((e.ledger.counters p).creditedByReceipts.toNat +
          total EventLoop.step (fun e ev => ((e.receiptsFor p ev).map fun r => r.bytes.toNat).sum)
            e events) (2 ^ 64 - 1) ∧
      Along EventLoop.step (EventLoop.VouchedByOthers p) e events) ↔
    Along EventLoop.step (EventLoop.NoSelfReceipt p) e events :=
  ⟨fun h => h.2.mono fun s a => (s.vouchedByOthers_iff p a).mp,
    fun h => ⟨(EventLoop.runs_counters p hrun).2.2,
      h.mono fun s a => (s.vouchedByOthers_iff p a).mpr⟩⟩

/-! ## Vouching twice -/

/-- How often the event credits the peer for the receipt of this client and epoch, not counting
receipts for no bytes. -/
def EventLoop.credits (p : Peer) (client : RepPeerId) (epoch : UInt64) (e : EventLoop Peer)
    (ev : NodeEvent Peer) : Nat :=
  (e.receiptsFor p ev).countP fun r => r.client = client ∧ r.epoch = epoch ∧ r.bytes ≠ 0

omit [Blake3] [RaptorQ] in
/-- One answer credits it once at most. -/
theorem EventLoop.credits_le_one (p : Peer) (client : RepPeerId) (epoch : UInt64)
    (e : EventLoop Peer) (ev : NodeEvent Peer) : e.credits p client epoch ev ≤ 1 := by
  rw [EventLoop.credits]
  rcases hr : e.receiptsFor p ev with _ | ⟨r, rs⟩
  · exact Nat.zero_le 1
  · obtain ⟨id, receipts, key, -, -, -, heq⟩ := EventLoop.of_mem_receiptsFor
      (hr ▸ List.mem_cons_self : r ∈ e.receiptsFor p ev)
    have hnodup := nodup_creditable key [] receipts
    rw [← heq, hr] at hnodup
    have hcount := List.nodup_iff_count_le_one.mp hnodup (client, epoch)
    rw [List.count, List.countP_map] at hcount
    refine (List.countP_mono_left fun q _ hq => ?_).trans hcount
    have hq := of_decide_eq_true hq
    simp [hq.1, hq.2.1]

omit [Blake3] [Ed25519] [RaptorQ] in
/-- Counters that are not the default ones stay so. -/
theorem Counters.add_ne_default {c : Counters} (taken given vouched : Nat)
    (h : c ≠ .default ∨ 0 < vouched) : c.add taken given vouched ≠ .default := by
  intro he
  have hadd (a : UInt64) (n : Nat) (h0 : saturatingAdd a n = 0) : a = 0 ∧ n = 0 := by
    have hlt := a.toNat_lt
    have h0' := congrArg UInt64.toNat h0
    rw [toNat_saturatingAdd] at h0'
    have hzero : (0 : UInt64).toNat = 0 := rfl
    exact ⟨UInt64.toNat_inj.mp (by omega), by omega⟩
  simp only [Counters.add, Counters.default, Counters.mk.injEq] at he
  obtain ⟨h1, h2, h3⟩ := he
  rcases h with hne | hpos
  · refine hne ?_
    cases c
    simp only [Counters.default, Counters.mk.injEq]
    exact ⟨(hadd _ _ h1).1, (hadd _ _ h2).1, (hadd _ _ h3).1⟩
  · exact absurd (hadd _ _ h3).2 (Nat.ne_of_gt hpos)

/-- Crediting anything takes a pull in flight, and leaves a mark on the ledger. -/
theorem Swarm.pull_of_credits {w w' : Swarm Peer} {ev : NodeEvent Peer} {p : Peer}
    {client : RepPeerId} {epoch : UInt64} (h : w.step ev = some w')
    (hpos : 0 < w.node.credits p client epoch ev) : ∃ id response, ev = .response p id response ∧
      id ∈ w.pulls p ∧ w'.node.ledger.counters p ≠ .default := by
  obtain ⟨r, hr, hbytes⟩ := List.countP_pos_iff.mp hpos
  have hbytes := (of_decide_eq_true hbytes).2.2
  obtain ⟨id, receipts, key, rfl, hpending, -⟩ := EventLoop.of_mem_receiptsFor hr
  have hflight : w.inFlight.lookup id = some p := by
    by_contra hne
    rw [Swarm.step, if_neg hne] at h
    cases h
  refine ⟨id, _, rfl, Swarm.mem_pulls.mpr ⟨hpending, hflight⟩, ?_⟩
  rw [EventLoop.step_counters p _ _ _ (Swarm.step_node h)]
  refine Counters.add_ne_default _ _ _ (.inr ?_)
  have hle : r.bytes.toNat ≤ w.node.vouched p (.response p id (.receipts receipts)) :=
    List.single_le_sum (fun _ _ => Nat.zero_le _) _ (List.mem_map.mpr ⟨r, hr, rfl⟩)
  have hne : r.bytes.toNat ≠ 0 := fun h0 => hbytes (UInt64.toNat_inj.mp h0)
  omega

/-- The node knows the peer and asks it no more. -/
structure Swarm.Settled (p : Peer) (w : Swarm Peer) : Prop where
  numbered : w.Numbered
  known : w.node.ledger.counters p ≠ .default
  asked : w.pulls p = ∅

/-- A settled node stays settled. -/
theorem Swarm.Settled.step {p : Peer} {w w' : Swarm Peer} {ev : NodeEvent Peer} (hw : w.Settled p)
    (h : w.step ev = some w') : w'.Settled p where
  numbered := Swarm.step_numbered hw.numbered h
  known := by
    rw [EventLoop.step_counters p _ _ _ (Swarm.step_node h)]
    exact Counters.add_ne_default _ _ _ (.inl hw.known)
  asked := by
    refine Finset.eq_empty_of_forall_notMem fun id hid => ?_
    rcases Swarm.step_pulls hw.numbered h hid with hold | ⟨-, hpull⟩
    · rw [hw.asked] at hold
      cases hold
    · cases ev with
      | identified q key => exact hw.known hpull.2.2
      | _ => exact hpull

/-- A settled node credits the peer for nothing. -/
theorem Swarm.Settled.total_credits {p : Peer} (client : RepPeerId) (epoch : UInt64) :
    ∀ {events : List (NodeEvent Peer)} {w w' : Swarm Peer}, w.Settled p →
    runs Swarm.step w events = some w' →
    total Swarm.step (fun w ev => w.node.credits p client epoch ev) w events = 0
  | [], _, _, _, _ => rfl
  | ev :: events, w, w', hw, hrun => by
    obtain ⟨t, ht, hrest⟩ := runs_cons.mp hrun
    have hzero : w.node.credits p client epoch ev = 0 := by
      refine Nat.eq_zero_of_not_pos fun hpos => ?_
      obtain ⟨id, _, -, hid, -⟩ := Swarm.pull_of_credits ht hpos
      rw [hw.asked] at hid
      cases hid
    rw [total, ht, hzero, Nat.zero_add]
    exact Swarm.Settled.total_credits client epoch (hw.step ht) hrest

/-- The event does not ask the peer for its receipts while the peer has been asked already and has
not answered yet. -/
def Swarm.SinglePull (p : Peer) (w : Swarm Peer) (ev : NodeEvent Peer) : Prop :=
  w.node.Pulls p ev → w.pulls p = ∅

instance Swarm.decidableSinglePull (p : Peer) (w : Swarm Peer) (ev : NodeEvent Peer) :
    Decidable (w.SinglePull p ev) :=
  inferInstanceAs (Decidable (w.node.Pulls p ev → w.pulls p = ∅))

/-- At most one pull is in flight to the peer. -/
structure Swarm.Asking (p : Peer) (w : Swarm Peer) : Prop where
  numbered : w.Numbered
  single : ∀ id ∈ w.pulls p, ∀ id' ∈ w.pulls p, id = id'

/-- One event that meets the condition keeps at most one pull in flight. -/
theorem Swarm.Asking.step {p : Peer} {w w' : Swarm Peer} {ev : NodeEvent Peer} (hw : w.Asking p)
    (hok : w.SinglePull p ev) (h : w.step ev = some w') : w'.Asking p where
  numbered := Swarm.step_numbered hw.numbered h
  single id hid id' hid' := by
    rcases Swarm.step_pulls hw.numbered h hid with hold | ⟨he, hpull⟩
    · rcases Swarm.step_pulls hw.numbered h hid' with hold' | ⟨-, hpull⟩
      · exact hw.single id hold id' hold'
      · rw [hok hpull] at hold
        cases hold
    · rcases Swarm.step_pulls hw.numbered h hid' with hold' | ⟨he', -⟩
      · rw [hok hpull] at hold'
        cases hold'
      · exact he.trans he'.symm

/-- The answer that is credited settles the node: the only pull in flight is over. -/
theorem Swarm.Asking.settled {p : Peer} {w w' : Swarm Peer} {ev : NodeEvent Peer}
    {client : RepPeerId} {epoch : UInt64} (hw : w.Asking p) (h : w.step ev = some w')
    (hpos : 0 < w.node.credits p client epoch ev) : w'.Settled p := by
  obtain ⟨id, response, rfl, hid, hknown⟩ := Swarm.pull_of_credits h hpos
  refine ⟨Swarm.step_numbered hw.numbered h, hknown, ?_⟩
  refine Finset.eq_empty_of_forall_notMem fun id' hid' => ?_
  rcases Swarm.step_pulls hw.numbered h hid' with hold | ⟨-, hpull⟩
  · rw [hw.single id' hold id hid] at hid'
    exact Swarm.notMem_pulls_of_response h hid'
  · exact hpull

/-- Each receipt is credited at most once in every run of a node that has just started, with any
ledger, in which a peer is asked for its receipts only while no earlier request for them is
unanswered. -/
theorem credited_at_most_once {p : Peer} {w w' : Swarm Peer} {events : List (NodeEvent Peer)}
    (hstart : w.node.pendingInternal = ∅ ∧ w.inFlight = ∅)
    (hok : Along Swarm.step (Swarm.SinglePull p) w events)
    (hrun : runs Swarm.step w events = some w') (client : RepPeerId) (epoch : UInt64) :
    total Swarm.step (fun w ev => w.node.credits p client epoch ev) w events ≤ 1 := by
  have hasking : w.Asking p := by
    refine ⟨⟨fun id hid => ?_, fun id q hq => ?_⟩, fun id hid => ?_⟩
    · rw [hstart.1] at hid
      exact absurd hid Finmap.notMem_empty
    · rw [hstart.2] at hq
      cases hq
    · have hpending := (Swarm.mem_pulls.mp hid).1
      rw [hstart.1] at hpending
      cases hpending
  clear hstart
  induction events generalizing w with
  | nil => exact Nat.zero_le 1
  | cons ev events ih =>
    obtain ⟨t, ht, hrest⟩ := runs_cons.mp hrun
    rw [total, ht]
    dsimp only
    rcases Nat.eq_zero_or_pos (w.node.credits p client epoch ev) with hzero | hpos
    · rw [hzero, Nat.zero_add]
      exact ih (hok.2 t ht) hrest (hasking.step hok.1 ht)
    · rw [(hasking.settled ht hpos).total_credits client epoch hrest, Nat.add_zero]
      exact w.node.credits_le_one p client epoch ev

end

/-! ## One peer and a node that has just started -/

/-- A node that has and knows nothing. -/
def idleNode : @EventLoop Unit ownSignatures :=
  let _ := ownSignatures
  { disk := Disk.fresh ∅ ∅ some
    store := Store.fresh
    provided := ∅
    ledger := ⟨∅⟩
    ledgerDirty := false
    chokeThreshold := 0
    repIdentity := .ofByte 0
    repPeers := ∅
    receiptsPulledFrom := ∅
    pendingInternal := ∅
    receipts := []
    symbols := ∅
    nextReceiptEpoch := 0
    nextRequest := 0 }

/-- A receipt for 1000 bytes about the peer whose key is made of ones. -/
def receiptFrom (client : UInt8) : Receipt :=
  @Receipt.issue ownSignatures (.ofByte client) (.ofByte 1) 1000 0

/-- The peer is met, and answers with a receipt of its own making or of another's. -/
def answerWith (client : UInt8) : List (NodeEvent Unit) :=
  [.identified () (.ofByte 1), .response () 0 (.receipts [receiptFrom client])]

theorem answerWith_noSelfReceipt :
    Along (@EventLoop.step blake3OfX ownSignatures oneSymbolCode Unit _)
      (@EventLoop.NoSelfReceipt ownSignatures Unit _ ()) idleNode (answerWith 2) := by
  decide +kernel

/-- A receipt of another key is credited. -/
theorem vouched_by_another :
    let _ := blake3OfX
    let _ := ownSignatures
    let _ := oneSymbolCode
    ∃ e, runs EventLoop.step idleNode (answerWith 2) = some e ∧
      (e.ledger.counters ()).creditedByReceipts.toNat = min (0 + 1000) (2 ^ 64 - 1) ∧
      Along EventLoop.step (EventLoop.VouchedByOthers ()) idleNode (answerWith 2) := by
  let _ := blake3OfX
  let _ := ownSignatures
  let _ := oneSymbolCode
  obtain ⟨e, hrun⟩ : ∃ e, runs EventLoop.step idleNode (answerWith 2) = some e := ⟨_, rfl⟩
  exact ⟨e, hrun, (vouched_by_others_iff (p := ()) hrun).mpr answerWith_noSelfReceipt⟩

/-- A peer vouches for itself: it is credited for the receipt that it signed about itself. -/
theorem vouched_by_itself :
    let _ := blake3OfX
    let _ := ownSignatures
    let _ := oneSymbolCode
    (receiptFrom 1).client = (receiptFrom 1).server ∧
      (runs EventLoop.step idleNode (answerWith 1)).map
        (fun e => (e.ledger.counters ()).creditedByReceipts) = some 1000 ∧
      ¬Along EventLoop.step (EventLoop.VouchedByOthers ()) idleNode (answerWith 1) := by
  decide +kernel

/-- The node with nothing in flight. -/
def idleSwarm : @Swarm Unit ownSignatures := @Swarm.mk Unit ownSignatures idleNode ∅

/-- The peer answers with a receipt twice, is lost and met again, after its answer. -/
def reconnectAfterAnswer : List (NodeEvent Unit) :=
  [.identified () (.ofByte 1), .response () 0 (.receipts [receiptFrom 2, receiptFrom 2]),
    .connectionClosed (), .identified () (.ofByte 1)]

/-- The peer is lost and met again before it has answered, and then answers both requests. -/
def reconnectBeforeAnswer : List (NodeEvent Unit) :=
  [.identified () (.ofByte 1), .connectionClosed (), .identified () (.ofByte 1),
    .response () 0 (.receipts [receiptFrom 2]), .response () 1 (.receipts [receiptFrom 2])]

theorem reconnectAfterAnswer_singlePull :
    Along (@Swarm.step blake3OfX ownSignatures oneSymbolCode Unit _)
      (@Swarm.SinglePull ownSignatures Unit _ ()) idleSwarm reconnectAfterAnswer := by
  decide +kernel

/-- A receipt that is presented twice is credited once, and the peer is not asked again. -/
theorem credited_once_after_reconnect :
    let _ := blake3OfX
    let _ := ownSignatures
    let _ := oneSymbolCode
    total Swarm.step (fun w ev => w.node.credits () (.ofByte 2) 0 ev) idleSwarm
      reconnectAfterAnswer ≤ 1 := by
  let _ := blake3OfX
  let _ := ownSignatures
  let _ := oneSymbolCode
  obtain ⟨w, hrun⟩ : ∃ w, runs Swarm.step idleSwarm reconnectAfterAnswer = some w := ⟨_, rfl⟩
  exact credited_at_most_once ⟨rfl, rfl⟩ reconnectAfterAnswer_singlePull hrun _ _

/-- A receipt is credited twice. -/
theorem credited_twice :
    let _ := blake3OfX
    let _ := ownSignatures
    let _ := oneSymbolCode
    total Swarm.step (fun w ev => w.node.credits () (.ofByte 2) 0 ev) idleSwarm
        reconnectBeforeAnswer = 2 ∧
      (runs Swarm.step idleSwarm reconnectBeforeAnswer).map
        (fun w => (w.node.ledger.counters ()).creditedByReceipts) = some 2000 := by
  decide +kernel

end Np2ptp
