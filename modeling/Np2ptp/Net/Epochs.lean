import Mathlib.Data.List.Nodup
import Mathlib.Data.List.Range
import Np2ptp.Net.Choke

/-!
# Receipt epochs

A node numbers the receipts it issues. A session starts at the seconds that the clock shows and
counts up by one for every receipt, so within a session no epoch is used twice. Across sessions the
clock has to have moved on by as many seconds as receipts were issued, and nothing makes it: a
session that issues receipts faster than one a second and is followed by another soon after hands
out the same epochs again (`receipt_epochs_distinct_iff`).
-/

namespace Np2ptp

open Lib

/-- A session: what the node starts from, what the clock shows then, and what happens to it. -/
structure Session (Peer : Type) where
  disk : Disk
  store : Store
  ledger : Ledger Peer
  receipts : List Receipt
  now : UInt64
  events : List (NodeEvent Peer)

section

variable [Ed25519] {Peer : Type} [DecidableEq Peer]

/-- The node at the start of a session. -/
def Session.start (identity : Ed25519.SigningKey) (s : Session Peer) : EventLoop Peer :=
  .new s.disk s.store s.ledger s.receipts identity s.now

/-- The receipt that an event makes the node issue. -/
def EventLoop.issues (e : EventLoop Peer) (ev : NodeEvent Peer) : Option Receipt :=
  (e.issued ev).map Prod.snd

/-- Whether an event is the command to submit a receipt to an identified peer. -/
def EventLoop.submits (e : EventLoop Peer) : NodeEvent Peer → Nat
  | .submitReceipt peer _ => if peer ∈ e.repPeers then 1 else 0
  | _ => 0

variable [Blake3] [RaptorQ]

/-- The receipts of a session. -/
def Session.issued (identity : Ed25519.SigningKey) (s : Session Peer) : List Receipt :=
  gathered EventLoop.step EventLoop.issues (s.start identity) s.events

/-- The receipts that a session is asked for. -/
def Session.submitted (identity : Ed25519.SigningKey) (s : Session Peer) : Nat :=
  total EventLoop.step EventLoop.submits (s.start identity) s.events

/-! ## One session -/

/-- An event issues the receipt it asks for, if any, and the counter goes up by one with it. -/
theorem EventLoop.step_issues {e e' : EventLoop Peer} {ev : NodeEvent Peer}
    (h : e.step ev = some e') :
    e.issues ev = none ∧ e.submits ev = 0 ∧ e'.nextReceiptEpoch = e.nextReceiptEpoch ∨
    ∃ r, e.issues ev = some r ∧ r.epoch = e.nextReceiptEpoch ∧ e.submits ev = 1 ∧
      e'.nextReceiptEpoch = e.nextReceiptEpoch + 1 := by
  cases ev with
  | request q request =>
    left
    cases h
    obtain ⟨s, symbols, ledger, dirty, receipts, h⟩ := e.serve_frame q request
    exact ⟨rfl, rfl, by rw [h]⟩
  | response q id response =>
    left
    cases h
    obtain ⟨ledger, dirty, h⟩ := e.onResponse_frame q id response
    exact ⟨rfl, rfl, by rw [h]⟩
  | identified q key =>
    left
    cases h
    obtain ⟨pulled, pending, next, h⟩ := e.onIdentified_frame q key
    exact ⟨rfl, rfl, by rw [h]⟩
  | submitReceipt q bytes =>
    rw [EventLoop.step] at h
    split at h
    · next hpeer =>
      cases h
      left
      refine ⟨by rw [EventLoop.issues, EventLoop.issued, hpeer]; rfl, ?_, rfl⟩
      exact if_neg (Finmap.lookup_eq_none.mp hpeer)
    · next server hpeer =>
      cases h
      right
      refine ⟨_, by rw [EventLoop.issues, EventLoop.issued, hpeer]; rfl, rfl, ?_, rfl⟩
      exact if_pos (Finmap.mem_of_lookup_eq_some hpeer)
  | saveTick saved =>
    left
    obtain ⟨dirty, rfl⟩ := EventLoop.saveTick_frame h
    exact ⟨rfl, rfl, rfl⟩
  | _ =>
    left
    cases h
    exact ⟨rfl, rfl, rfl⟩

/-- Every event can happen. -/
theorem EventLoop.exists_step (e : EventLoop Peer) (ev : NodeEvent Peer) :
    ∃ e', e.step ev = some e' := by
  cases ev with
  | submitReceipt q bytes =>
    rw [EventLoop.step]
    split
    · exact ⟨_, rfl⟩
    · exact ⟨_, rfl⟩
  | saveTick saved =>
    rw [EventLoop.step]
    split
    · exact ⟨_, rfl⟩
    · exact ⟨_, rfl⟩
  | _ => exact ⟨_, rfl⟩

/-- `n` epochs, counted up from the first. -/
def epochsFrom (first : UInt64) (n : Nat) : List UInt64 :=
  (List.range n).map fun k => first + UInt64.ofNat k

/-- The epochs of a session count up from the clock at its start, one for each receipt. -/
theorem EventLoop.epochs_gathered (events : List (NodeEvent Peer)) (e : EventLoop Peer) :
    (gathered EventLoop.step EventLoop.issues e events).map Receipt.epoch =
      epochsFrom e.nextReceiptEpoch (total EventLoop.step EventLoop.submits e events) := by
  induction events generalizing e with
  | nil => rfl
  | cons ev events ih =>
    obtain ⟨e', he⟩ := e.exists_step ev
    rw [gathered, total, he]
    dsimp only
    rw [List.map_append, ih e']
    rcases EventLoop.step_issues he with ⟨hr, hn, hnext⟩ | ⟨r, hr, hepoch, hn, hnext⟩
    · rw [hr, hn, hnext, Nat.zero_add]
      rfl
    · rw [hr, hn, hnext, Nat.add_comm, epochsFrom, epochsFrom, List.range_succ_eq_map]
      simp only [Option.toList_some, List.map_cons, List.map_nil, hepoch, List.map_map,
        List.singleton_append]
      congr 1
      · simp
      · refine List.map_congr_left fun k _ => ?_
        simp only [Function.comp_apply, Nat.succ_eq_add_one, UInt64.ofNat_add, UInt64.add_assoc]
        rw [UInt64.add_comm 1]
        rfl

omit [Ed25519] [Blake3] [RaptorQ] [DecidableEq Peer] in
theorem toNat_epoch {first : UInt64} {k n : Nat} (h : first.toNat + n ≤ 2 ^ 64) (hk : k < n) :
    (first + UInt64.ofNat k).toNat = first.toNat + k := by
  rw [UInt64.toNat_add, UInt64.toNat_ofNat']
  omega

omit [Ed25519] [Blake3] [RaptorQ] [DecidableEq Peer] in
/-- Epochs that do not wrap around are an interval. -/
theorem mem_epochsFrom {first x : UInt64} {n : Nat} (h : first.toNat + n ≤ 2 ^ 64) :
    x ∈ epochsFrom first n ↔ first.toNat ≤ x.toNat ∧ x.toNat < first.toNat + n := by
  unfold epochsFrom
  rw [List.mem_map]
  constructor
  · rintro ⟨k, hk, rfl⟩
    have hlt := List.mem_range.mp hk
    rw [toNat_epoch h hlt]
    omega
  · rintro ⟨hle, hlt⟩
    have hk : x.toNat - first.toNat < n := by omega
    refine ⟨x.toNat - first.toNat, List.mem_range.mpr hk, ?_⟩
    rw [← UInt64.toNat_inj, toNat_epoch h hk]
    omega

omit [Ed25519] [Blake3] [RaptorQ] [DecidableEq Peer] in
theorem nodup_epochsFrom {first : UInt64} {n : Nat} (h : first.toNat + n ≤ 2 ^ 64) :
    (epochsFrom first n).Nodup := by
  refine List.Nodup.map_on ?_ List.nodup_range
  intro j hj k hk he
  have hnat := congrArg UInt64.toNat he
  rw [toNat_epoch h (List.mem_range.mp hj), toNat_epoch h (List.mem_range.mp hk)] at hnat
  omega

/-! ## Sessions one after the other -/

/-- When no epoch is used twice over the sessions of one identity, under a clock that does not go
back: if and only if the clock moves on, from the start of each session to the start of every later
one that issues a receipt, by at least as many seconds as the earlier one issued receipts. -/
theorem receipt_epochs_distinct_iff {identity : Ed25519.SigningKey} {sessions : List (Session Peer)}
    (hclock : sessions.Pairwise fun s t => s.now ≤ t.now)
    (hcount : ∀ s ∈ sessions, s.now.toNat + s.submitted identity ≤ 2 ^ 64) :
    ((sessions.flatMap (Session.issued identity)).map Receipt.epoch).Nodup ↔
      sessions.Pairwise fun s t =>
        t.submitted identity = 0 ∨ s.now.toNat + s.submitted identity ≤ t.now.toNat := by
  have hepochs (s : Session Peer) : (s.issued identity).map Receipt.epoch =
      epochsFrom s.now (s.submitted identity) := EventLoop.epochs_gathered s.events _
  rw [List.map_flatMap, List.nodup_flatMap]
  simp only [hepochs]
  constructor
  · rintro ⟨-, hdisjoint⟩
    refine List.Pairwise.imp_of_mem ?_ (hdisjoint.and hclock)
    rintro s t hs ht ⟨hd, hle⟩
    rw [UInt64.le_iff_toNat_le] at hle
    -- the first epoch of the later session is not one of the earlier session
    refine or_iff_not_imp_left.mpr fun hissues => ?_
    refine Nat.le_of_not_lt fun hlt => ?_
    refine hd ((mem_epochsFrom (x := t.now) (hcount s hs)).mpr ⟨hle, hlt⟩) ?_
    exact (mem_epochsFrom (hcount t ht)).mpr ⟨Nat.le_refl _, by omega⟩
  · intro hgaps
    refine ⟨fun s hs => nodup_epochsFrom (hcount s hs), ?_⟩
    refine List.Pairwise.imp_of_mem ?_ hgaps
    intro s t hs ht hgap x hxs hxt
    have hlt := (mem_epochsFrom (hcount s hs)).mp hxs
    have hge := (mem_epochsFrom (hcount t ht)).mp hxt
    omega

end

/-! ## Three receipts in a second -/

/-- A session that identifies a peer and issues some receipts to it. -/
def sessionOf (now : UInt64) (receipts : Nat) : Session Unit where
  disk := Disk.fresh ∅ ∅ some
  store := Store.fresh
  ledger := ⟨∅⟩
  receipts := []
  now := now
  events := .identified () (.ofByte 1) :: List.replicate receipts (.submitReceipt () 5)

/-- Restarting after three seconds keeps the epochs apart. -/
theorem receipt_epochs_distinct_after_three :
    let _ := blake3OfX
    let _ := noSignatures
    let _ := oneSymbolCode
    (([sessionOf 100 3, sessionOf 103 1].flatMap (Session.issued (.ofByte 0))).map
      Receipt.epoch).Nodup := by
  intro _ _ _
  refine (receipt_epochs_distinct_iff ?_ ?_).mpr ?_
  · decide
  · decide +kernel
  · decide +kernel

/-- Restarting after one second uses the epoch 101 again. -/
theorem receipt_epochs_repeat_after_one :
    let _ := blake3OfX
    let _ := noSignatures
    let _ := oneSymbolCode
    ([sessionOf 100 3, sessionOf 101 1].flatMap (Session.issued (.ofByte 0))).map
      (fun r => (r.client.bytes, r.epoch)) =
        [100, 101, 102, 101].map fun epoch => ((RepPeerId.ofByte 0).bytes, epoch) := by
  decide +kernel

end Np2ptp
