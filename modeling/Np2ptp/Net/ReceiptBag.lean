import Np2ptp.Lib.TopK
import Np2ptp.Net.Vouching

/-!
# The receipts a node keeps

A node keeps `MAX_RECEIPTS` of the receipts that others submit, those of most bytes. Whether it
already has a receipt is asked of what it holds, so a receipt that was cut off can come back. It is
then cut off again: over a whole run the bag holds the byte counts of the `MAX_RECEIPTS` largest of
all that were accepted, each receipt counted once (`receipts_top`).
-/

namespace Np2ptp

open Lib

/-! ## The order of the bag -/

instance total_bytes : @Std.Total UInt64 (· ≥ ·) := ⟨fun a b => UInt64.le_total b a⟩

instance trans_bytes : IsTrans UInt64 (· ≥ ·) :=
  ⟨fun _ _ _ hab hbc => UInt64.le_trans hbc hab⟩

instance antisymm_bytes : @Std.Antisymm UInt64 (· ≥ ·) :=
  ⟨fun _ _ hab hba => UInt64.le_antisymm hba hab⟩

/-- The order in which `ReceiptBag::insert` sorts. -/
def Receipt.before (a b : Receipt) : Prop := b.bytes ≤ a.bytes

instance : DecidableRel Receipt.before := fun a b => inferInstanceAs (Decidable (b.bytes ≤ a.bytes))

instance : Std.Total Receipt.before := ⟨fun a b => UInt64.le_total b.bytes a.bytes⟩

instance : IsTrans Receipt Receipt.before := ⟨fun _ _ _ hab hbc => UInt64.le_trans hbc hab⟩

theorem Receipt.before_iff (a b : Receipt) : a.before b ↔ a.bytes ≥ b.bytes := Iff.rfl

/-- `insert` offers the bag a receipt. -/
theorem ReceiptBag.insert_eq (receipts : List Receipt) (r : Receipt) :
    ReceiptBag.insert receipts r = offer Receipt.before MAX_RECEIPTS receipts r := rfl

/-! ## Submissions -/

section

variable [Ed25519] {Peer : Type}

/-- The test of `serve`: a receipt verifies, is about the node and is not its own. -/
def Receipt.acceptedBy (identity : Ed25519.SigningKey) (r : Receipt) : Prop :=
  r.verify ∧ r.server = Ed25519.verifyingKey identity ∧ r.client ≠ r.server

instance (identity : Ed25519.SigningKey) : DecidablePred (Receipt.acceptedBy identity) :=
  fun r => inferInstanceAs (Decidable (r.verify ∧ _))

/-- The receipt that an event submits to the node. -/
def NodeEvent.submitted : NodeEvent Peer → Option Receipt
  | .request _ (.submitReceipt receipt) => some receipt
  | _ => none

/-- The receipts among those submitted that the node accepts, in order. -/
def accepted (identity : Ed25519.SigningKey) (events : List (NodeEvent Peer)) : List Receipt :=
  (events.filterMap NodeEvent.submitted).filter fun r => r.acceptedBy identity

theorem accepted_cons (identity : Ed25519.SigningKey) (ev : NodeEvent Peer)
    (events : List (NodeEvent Peer)) :
    accepted identity (ev :: events) = accepted identity [ev] ++ accepted identity events := by
  rw [accepted, accepted, accepted, ← List.filter_append, ← List.filterMap_append,
    List.singleton_append]

variable [Blake3] [RaptorQ] [DecidableEq Peer]

/-- The bag changes with a request that submits an accepted receipt, and with no other. -/
theorem EventLoop.serve_receipts (e : EventLoop Peer) (q : Peer) (request : Net.Request) :
    (e.serve q request).2.repIdentity = e.repIdentity ∧ (e.serve q request).2.receipts =
      (accepted e.repIdentity [.request q request]).foldl ReceiptBag.insert e.receipts := by
  have hafter : e.receiptsAfter request =
      (accepted e.repIdentity [.request q request]).foldl ReceiptBag.insert e.receipts := by
    cases request with
    | submitReceipt receipt =>
      by_cases h : receipt.acceptedBy e.repIdentity
      · refine (if_pos h).trans ?_
        simp [accepted, NodeEvent.submitted, h]
      · refine (if_neg h).trans ?_
        simp [accepted, NodeEvent.submitted, h]
    | _ => rfl
  obtain ⟨s, symbols, e₁, rfl, ⟨-, h⟩ | h⟩ := e.serve_cases q request
  · rw [h]
    exact ⟨rfl, hafter⟩
  · rw [h]
    exact ⟨rfl, hafter⟩

/-- What an event does to the bag: the receipt that it submits is offered, if it is accepted; and
the node stays who it is. -/
theorem EventLoop.step_receipts {e e' : EventLoop Peer} {ev : NodeEvent Peer}
    (h : e.step ev = some e') : e'.repIdentity = e.repIdentity ∧
      e'.receipts = (accepted e.repIdentity [ev]).foldl ReceiptBag.insert e.receipts := by
  cases ev with
  | request q request =>
    cases h
    exact e.serve_receipts q request
  | response q id response =>
    cases h
    obtain ⟨ledger, dirty, h⟩ := e.onResponse_frame q id response
    rw [h]
    exact ⟨rfl, rfl⟩
  | identified q key =>
    cases h
    obtain ⟨pulled, pending, next, h⟩ := e.onIdentified_frame q key
    rw [h]
    exact ⟨rfl, rfl⟩
  | submitReceipt q bytes =>
    obtain ⟨epoch, pending, next, rfl⟩ := EventLoop.submitReceipt_frame h
    exact ⟨rfl, rfl⟩
  | saveTick saved =>
    obtain ⟨dirty, rfl⟩ := EventLoop.saveTick_frame h
    exact ⟨rfl, rfl⟩
  | _ => cases h; exact ⟨rfl, rfl⟩

/-- The bag after a run: every accepted receipt was offered, in order. -/
theorem EventLoop.runs_receipts {events : List (NodeEvent Peer)} {e e' : EventLoop Peer}
    (hrun : runs EventLoop.step e events = some e') : e'.repIdentity = e.repIdentity ∧
      e'.receipts = (accepted e.repIdentity events).foldl ReceiptBag.insert e.receipts := by
  induction events generalizing e with
  | nil =>
    cases hrun
    exact ⟨rfl, rfl⟩
  | cons ev events ih =>
    obtain ⟨t, ht, hrest⟩ := runs_cons.mp hrun
    obtain ⟨hidentity, hbag⟩ := EventLoop.step_receipts ht
    obtain ⟨hidentity', hbag'⟩ := ih hrest
    refine ⟨hidentity'.trans hidentity, ?_⟩
    rw [hbag', hidentity, hbag, accepted_cons _ ev events, List.foldl_append]

/-- The bag is the top of what was accepted: it is sorted by bytes, holds no receipt twice, and its
byte counts are the `MAX_RECEIPTS` largest of the distinct receipts that were accepted so far. So
they do not depend on the order of the submissions. Every receipt in it verifies, names this node as
the server and has another client. -/
theorem EventLoop.receipts_are_top {e e' : EventLoop Peer} {events : List (NodeEvent Peer)}
    (hempty : e.receipts = []) (hrun : runs EventLoop.step e events = some e') :
    e'.receipts.Pairwise (fun a b => a.bytes ≥ b.bytes) ∧ e'.receipts.Nodup ∧
    e'.receipts.map Receipt.bytes =
      topK (· ≥ ·) MAX_RECEIPTS ((accepted e.repIdentity events).dedup.map Receipt.bytes) ∧
    (∀ events' e'', (events'.filterMap NodeEvent.submitted).Perm
        (events.filterMap NodeEvent.submitted) →
      runs EventLoop.step e events' = some e'' →
        e''.receipts.map Receipt.bytes = e'.receipts.map Receipt.bytes) ∧
    ∀ r ∈ e'.receipts,
      r.verify ∧ r.server = Ed25519.verifyingKey e'.repIdentity ∧ r.client ≠ r.server := by
  have htops {events : List (NodeEvent Peer)} {e' : EventLoop Peer}
      (hrun : runs EventLoop.step e events = some e') :
      Tops Receipt.before (· ≥ ·) Receipt.bytes MAX_RECEIPTS
        (accepted e.repIdentity events).dedup e'.receipts := by
    have hinsert : ReceiptBag.insert = offer Receipt.before MAX_RECEIPTS :=
      funext₂ ReceiptBag.insert_eq
    rw [(EventLoop.runs_receipts hrun).2, hempty, hinsert]
    exact tops_foldl Receipt.before_iff MAX_RECEIPTS _
  refine ⟨(htops hrun).sorted, (htops hrun).nodup, (htops hrun).keys, ?_, ?_⟩
  · intro events' e'' hperm hrun'
    rw [(htops hrun').keys, (htops hrun).keys]
    exact topK_perm (((hperm.filter _).dedup).map Receipt.bytes)
  · intro r hr
    have haccepted := List.mem_dedup.mp ((htops hrun).subset r hr)
    rw [(EventLoop.runs_receipts hrun).1]
    exact of_decide_eq_true (List.mem_filter.mp haccepted).2

end

/-! ## One node -/

/-- A receipt for this many bytes, about the node whose key is made of zeros. -/
def receiptFor (bytes : UInt64) : Receipt :=
  @Receipt.issue ownSignatures (.ofByte 1) (.ofByte 0) bytes 0

/-- Two receipts are submitted, one of them twice. -/
def threeSubmissions : List (NodeEvent Unit) :=
  [.request () (.submitReceipt (receiptFor 1)), .request () (.submitReceipt (receiptFor 7)),
    .request () (.submitReceipt (receiptFor 1))]

theorem receipts_after_threeSubmissions :
    let _ := blake3OfX
    let _ := ownSignatures
    let _ := oneSymbolCode
    ∃ e', runs EventLoop.step idleNode threeSubmissions = some e' ∧
      e'.receipts.map Receipt.bytes = topK (· ≥ ·) MAX_RECEIPTS
        ((accepted idleNode.repIdentity threeSubmissions).dedup.map Receipt.bytes) ∧
      e'.receipts.map Receipt.bytes = [7, 1] := by
  let _ := blake3OfX
  let _ := ownSignatures
  let _ := oneSymbolCode
  obtain ⟨e', hrun⟩ := Option.isSome_iff_exists.mp
    (by decide +kernel : (runs EventLoop.step idleNode threeSubmissions).isSome)
  have hkeys := (EventLoop.receipts_are_top rfl hrun).2.2.1
  refine ⟨e', hrun, hkeys, hkeys.trans ?_⟩
  decide +kernel

end Np2ptp
