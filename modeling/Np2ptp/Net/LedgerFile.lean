import Np2ptp.Net.Choke

/-!
# The file of the ledger

A persistent node writes its ledger to a file, in two places. The periodic tick writes it when the
flag says that it has changed, and sets the flag again when the write fails. The answer to a pull of
receipts writes it right after crediting them, and there a failed write is only reported: the flag
is not set, so the credit is in memory alone and nothing retries it. What follows from that is
stated over all runs (`ledger_remembered_iff`): a clear flag means a saved ledger if and only if no
such write fails while the flag is clear.
-/

namespace Np2ptp

open Lib

/-- A node and what its ledger file holds: what the last successful `save` wrote, or what the ledger
was opened from. -/
structure Persistent (Peer : Type) [Ed25519] where
  node : EventLoop Peer
  file : Ledger Peer

section

variable [Ed25519] {Peer : Type} [DecidableEq Peer]

/-- The receipts that an event makes the node credit, and the peer: an answer to its pull. -/
def EventLoop.pulledReceipts (e : EventLoop Peer) : NodeEvent Peer → Option (Peer × List Receipt)
  | .response peer id (.receipts receipts) =>
    if e.pendingInternal.lookup id = some .getReceipts then
      (e.repPeers.lookup peer).bind fun expectedServer =>
        let credited := creditable expectedServer [] receipts
        -- `credited_any`
        if credited = [] then none else some (peer, credited)
    else none
  | _ => none

/-- `credit_receipt` for each of some receipts. -/
def Ledger.creditReceipts (l : Ledger Peer) (peer : Peer) (receipts : List Receipt) : Ledger Peer :=
  receipts.foldl (fun l r => l.creditReceipt peer r.bytes) l

variable [Blake3] [RaptorQ]

/-- One event. The flag beside it says whether the write in `handle_receipts_response` succeeds, if
the event comes to one; the tick has its own. -/
def Persistent.step (p : Persistent Peer) (x : NodeEvent Peer × Bool) : Option (Persistent Peer) :=
  (p.node.step x.1).map fun node =>
    { node := node
      file := match x.1 with
        | .saveTick saved => if p.node.ledgerDirty ∧ saved then p.node.ledger else p.file
        | ev => if (p.node.pulledReceipts ev).isSome ∧ x.2 then node.ledger else p.file }

/-- A clear flag means that the ledger is the saved one. -/
def Persistent.Remembered (p : Persistent Peer) : Prop :=
  p.node.ledgerDirty = false → p.node.ledger = p.file

/-- The write after crediting receipts succeeds, or the flag is set anyway, or the credit leaves the
ledger as it was. -/
def Persistent.Recorded (p : Persistent Peer) (x : NodeEvent Peer × Bool) : Prop :=
  ∀ peer receipts, p.node.pulledReceipts x.1 = some (peer, receipts) →
    x.2 = true ∨ p.node.ledgerDirty = true ∨
      p.node.ledger.creditReceipts peer receipts = p.node.ledger

/-! ## What the events do to the ledger and the flag -/

/-- Serving a request changes the ledger only where it sets the flag. -/
theorem EventLoop.serve_dirty (e : EventLoop Peer) (q : Peer) (request : Net.Request) :
    (e.serve q request).2.ledgerDirty = true ∨
      (e.serve q request).2.ledger = e.ledger ∧
        (e.serve q request).2.ledgerDirty = e.ledgerDirty := by
  obtain ⟨s, symbols, e₁, rfl, ⟨-, h⟩ | h⟩ := e.serve_cases q request
  · rw [h]
    exact .inr ⟨rfl, rfl⟩
  · rw [h]
    exact .inl rfl

omit [Blake3] [RaptorQ] in
/-- What a response does to the ledger: a chunk sets the flag, an answer to a pull is credited
without it, and nothing else touches the ledger. -/
theorem EventLoop.onResponse_ledger (e : EventLoop Peer) (q : Peer) (id : Nat)
    (response : Net.Response) :
    e.pulledReceipts (.response q id response) = none ∧
      ((e.onResponse q id response).ledgerDirty = true ∨
        (e.onResponse q id response).ledger = e.ledger ∧
          (e.onResponse q id response).ledgerDirty = e.ledgerDirty) ∨
    ∃ receipts, e.pulledReceipts (.response q id response) = some (q, receipts) ∧
      (e.onResponse q id response).ledger = e.ledger.creditReceipts q receipts ∧
      (e.onResponse q id response).ledgerDirty = e.ledgerDirty := by
  obtain ⟨data, rfl, h⟩ | ⟨receipts, key, rfl, hpending, hkey, h⟩ | ⟨-, hnone, h⟩ :=
    e.onResponse_cases q id response
  · rw [h]
    exact .inl ⟨rfl, .inl rfl⟩
  · rw [h, EventLoop.pulledReceipts, if_pos hpending, hkey]
    dsimp only [Option.bind_some]
    by_cases hempty : creditable key [] receipts = []
    · rw [if_pos hempty, hempty]
      exact .inl ⟨rfl, .inr ⟨rfl, rfl⟩⟩
    · rw [if_neg hempty]
      exact .inr ⟨creditable key [] receipts, rfl, rfl, rfl⟩
  · rw [h]
    refine .inl ⟨?_, .inr ⟨rfl, rfl⟩⟩
    unfold EventLoop.pulledReceipts
    split
    · next heq =>
      cases heq
      split
      · next hpending =>
        rw [hnone _ rfl hpending]
        rfl
      · rfl
    · rfl

/-- What an event does to the ledger and the file: nothing, or it sets the flag, or it is a tick, or
it credits receipts. -/
theorem Persistent.step_cases {p p' : Persistent Peer} {x : NodeEvent Peer × Bool}
    (h : p.step x = some p') :
    p.node.pulledReceipts x.1 = none ∧
      (p'.node.ledgerDirty = true ∨
        p'.node.ledger = p.node.ledger ∧ p'.node.ledgerDirty = p.node.ledgerDirty ∧
          p'.file = p.file ∨
        p'.node.ledger = p.node.ledger ∧ p'.file = p.node.ledger) ∨
    ∃ q receipts, p.node.pulledReceipts x.1 = some (q, receipts) ∧
      p'.node.ledger = p.node.ledger.creditReceipts q receipts ∧
      p'.node.ledgerDirty = p.node.ledgerDirty ∧
      p'.file = if x.2 then p'.node.ledger else p.file := by
  obtain ⟨ev, saved⟩ := x
  obtain ⟨node, hnode, rfl⟩ := Option.map_eq_some_iff.mp h
  cases ev with
  | request q request =>
    left
    cases hnode
    refine ⟨rfl, ?_⟩
    rcases p.node.serve_dirty q request with hd | ⟨hl, hd⟩
    · exact .inl hd
    · exact .inr (.inl ⟨hl, hd, rfl⟩)
  | response q id response =>
    cases hnode
    rcases p.node.onResponse_ledger q id response with ⟨hc, hd | ⟨hl, hd⟩⟩ | ⟨receipts, hc, hl, hd⟩
    · exact .inl ⟨hc, .inl hd⟩
    · refine .inl ⟨hc, .inr (.inl ⟨hl, hd, ?_⟩)⟩
      simp [hc]
    · refine .inr ⟨q, receipts, hc, hl, hd, ?_⟩
      simp [hc]
  | identified q key =>
    left
    cases hnode
    refine ⟨rfl, .inr (.inl ?_)⟩
    simp only [EventLoop.onIdentified]
    split
    · exact ⟨rfl, rfl, rfl⟩
    · exact ⟨rfl, rfl, rfl⟩
  | submitReceipt q bytes =>
    left
    refine ⟨rfl, .inr (.inl ?_)⟩
    rw [EventLoop.step] at hnode
    split at hnode
    · cases hnode
      exact ⟨rfl, rfl, rfl⟩
    · cases hnode
      exact ⟨rfl, rfl, rfl⟩
  | saveTick ticked =>
    left
    refine ⟨rfl, ?_⟩
    rw [EventLoop.step] at hnode
    split at hnode
    · next hdirty =>
      cases hnode
      cases ticked with
      | false => exact .inl rfl
      | true => exact .inr (.inr ⟨rfl, by simp [hdirty]⟩)
    · next hclear =>
      cases hnode
      exact .inr (.inl ⟨rfl, rfl, by simp [hclear]⟩)
  | _ =>
    left
    cases hnode
    exact ⟨rfl, .inr (.inl ⟨rfl, rfl, rfl⟩)⟩

/-! ## A clear flag -/

/-- A step that is recorded keeps the flag truthful. -/
theorem Persistent.step_remembered (p : Persistent Peer) (x : NodeEvent Peer × Bool)
    (p' : Persistent Peer) (h : p.Remembered) (hok : p.Recorded x) (hstep : p.step x = some p') :
    p'.Remembered := by
  intro hclear
  rcases Persistent.step_cases hstep with
    ⟨-, hd | ⟨hl, hd, hf⟩ | ⟨hl, hf⟩⟩ | ⟨q, receipts, hc, hl, hd, hf⟩
  · rw [hclear] at hd
    cases hd
  · rw [hl, hf]
    exact h (hd.symm.trans hclear)
  · rw [hl, hf]
  · rcases hok q receipts hc with hsaved | hdirty | hsame
    · rw [hf, if_pos hsaved]
    · rw [hd, hdirty] at hclear
      cases hclear
    · rw [hf, hl, hsame]
      split
      · rfl
      · exact h (hd.symm.trans hclear)

/-- A step that is not recorded makes the flag lie. -/
theorem Persistent.step_forgets (p : Persistent Peer) (x : NodeEvent Peer × Bool)
    (p' : Persistent Peer) (h : p.Remembered) (hno : ¬ p.Recorded x)
    (hstep : p.step x = some p') : ¬ p'.Remembered := by
  simp only [Persistent.Recorded, not_forall, not_or, exists_prop] at hno
  obtain ⟨q, receipts, hc, hunsaved, hclean, hchange⟩ := hno
  have hclear : p.node.ledgerDirty = false := Bool.eq_false_of_not_eq_true hclean
  rcases Persistent.step_cases hstep with ⟨hnone, -⟩ | ⟨q', receipts', hc', hl, hd, hf⟩
  · rw [hc] at hnone
    cases hnone
  · obtain ⟨rfl, rfl⟩ := Prod.mk.inj (Option.some.inj (hc.symm.trans hc'))
    intro hremembered
    apply hchange
    rw [← hl, hremembered (hd.trans hclear), hf, if_neg hunsaved, h hclear]

/-- When a clear flag means a saved ledger throughout a run: if and only if the write after
crediting the receipts of a pull fails at no step at which the flag is clear and the credit changes
the ledger. -/
theorem ledger_remembered_iff {p p' : Persistent Peer} {events : List (NodeEvent Peer × Bool)}
    (hopened : p.node.ledger = p.file) (hrun : runs Persistent.step p events = some p') :
    (∀ before after q, events = before ++ after → runs Persistent.step p before = some q →
      q.node.ledgerDirty = false → q.node.ledger = q.file) ↔
    Along Persistent.step Persistent.Recorded p events :=
  forall_prefix_iff_along Persistent.step_remembered Persistent.step_forgets (fun _ => hopened) hrun

end

/-! ## One receipt, credited in memory -/

/-- A node whose ledger file is empty. -/
def openedLedger : @Persistent Unit ownSignatures :=
  let _ := ownSignatures
  ⟨.new (Disk.fresh ∅ ∅ some) Store.fresh ⟨∅⟩ [] (.ofByte 0) 0, ⟨∅⟩⟩

/-- A peer is identified, and answers the pull with a receipt over five bytes. -/
def pullOfFive (saved : Bool) : List (NodeEvent Unit × Bool) :=
  let _ := ownSignatures
  [(.identified () (.ofByte 1), saved),
    (.response () 0 (.receipts [Receipt.issue (.ofByte 2) (.ofByte 1) 5 0]), saved)]

/-- When its write succeeds, the flag tells the truth all along. -/
theorem ledger_remembered_five :
    let _ := blake3OfX
    let _ := ownSignatures
    let _ := oneSymbolCode
    ∀ before after q, pullOfFive true = before ++ after →
      runs Persistent.step openedLedger before = some q →
      q.node.ledgerDirty = false → q.node.ledger = q.file := by
  intro _ _ _
  have hrun : ∃ p, runs Persistent.step openedLedger (pullOfFive true) = some p := ⟨_, rfl⟩
  obtain ⟨p, hrun⟩ := hrun
  refine (ledger_remembered_iff rfl hrun).mpr ?_
  exact ⟨fun _ _ _ => .inl rfl, fun _ _ => ⟨fun _ _ _ => .inl rfl, fun _ _ => trivial⟩⟩

/-- When it fails, the flag is clear, the receipt is credited, and the file does not have it. -/
theorem ledger_forgets_five :
    let _ := blake3OfX
    let _ := ownSignatures
    let _ := oneSymbolCode
    (runs Persistent.step openedLedger (pullOfFive false)).map (fun p => (p.node.ledgerDirty,
        (p.node.ledger.counters ()).creditedByReceipts,
        (p.file.counters ()).creditedByReceipts)) =
      some (false, 5, 0) := by
  decide +kernel

end Np2ptp
