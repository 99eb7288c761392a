import Np2ptp.Lib.Runs
import Np2ptp.Net.EventLoop
import Np2ptp.Store.History

/-!
# What the choke bounds

A node answers a chunk request only while the peer's reputation is not below the threshold, and
records what it gives. The requests for symbols record what they give but are answered whatever the
reputation. The books are kept by every event alike (`EventLoop.step_counters`); the bound that the
choke is for holds along the runs in which no choked peer asks for symbols that the node has
(`choke_bounds_taker`), and one such request breaks it (`choked_peer_gets_symbols`).
-/

namespace Np2ptp

open Lib

/-- The content bytes of a response. -/
def Net.Response.content : Net.Response → Nat
  | .chunk (some data) => data.length
  | .symbol (some bytes) => bytes.length
  | .symbols syms => (syms.map List.length).sum
  | _ => 0

/-- The counters after some bytes were received, given and vouched for. -/
def Counters.add (c : Counters) (taken given vouched : Nat) : Counters :=
  ⟨saturatingAdd c.servedToUs taken, saturatingAdd c.weServed given,
    saturatingAdd c.creditedByReceipts vouched⟩

@[simp] theorem Counters.add_zero (c : Counters) : c.add 0 0 0 = c := by
  simp [Counters.add]

section

variable [Blake3] [Ed25519] [RaptorQ] {Peer : Type}

/-! ## Symbols do not touch the books -/

/-- Making a symbol set touches the store and the symbols alone. -/
theorem EventLoop.ensureSymbols_frame (e : EventLoop Peer) (root : Hash) :
    ∃ s symbols, (e.ensureSymbols root).2 = { e with store := s, symbols := symbols } := by
  unfold EventLoop.ensureSymbols
  split
  · exact ⟨_, _, rfl⟩
  · split
    · exact ⟨_, _, rfl⟩
    · split
      · exact ⟨_, _, rfl⟩
      · split
        · exact ⟨_, _, rfl⟩
        · exact ⟨_, _, rfl⟩

/-- The symbols of the content that the node has or can make. -/
def EventLoop.symbolSet (e : EventLoop Peer) (root : Hash) : List Bytes :=
  match e.ensureSymbols root with
  | (false, _) => []
  | (true, e) => (e.symbols.lookup root).getD []

theorem EventLoop.symbol_eq (e : EventLoop Peer) (root : Hash) (index : Nat) :
    e.symbol root index = ((e.symbolSet root)[index]?, (e.ensureSymbols root).2) := by
  unfold EventLoop.symbol EventLoop.symbolSet
  rcases e.ensureSymbols root with ⟨_ | _, e'⟩
  · rfl
  · cases h : e'.symbols.lookup root with
    | none => simp [h]
    | some all => simp [h]

theorem EventLoop.symbolsRange_eq (e : EventLoop Peer) (root : Hash) (start count : Nat) :
    e.symbolsRange root start count =
      (symbolsIn (e.symbolSet root) start count, (e.ensureSymbols root).2) := by
  unfold EventLoop.symbolsRange EventLoop.symbolSet
  rcases e.ensureSymbols root with ⟨_ | _, e'⟩
  · simp [symbolsIn]
  · rfl

/-! ## What an event leaves alone -/

variable [DecidableEq Peer]

/-- The receipts after a request. -/
def EventLoop.receiptsAfter (e : EventLoop Peer) : Net.Request → List Receipt
  | .submitReceipt receipt =>
    if receipt.verify ∧ receipt.server = Ed25519.verifyingKey e.repIdentity ∧
        receipt.client ≠ receipt.server then
      ReceiptBag.insert e.receipts receipt
    else e.receipts
  | _ => e.receipts

/-- Everything serving a request can do: the store, the symbols and the receipts change; and what
the response holds is recorded as served, if it holds anything. -/
theorem EventLoop.serve_cases (e : EventLoop Peer) (q : Peer) (request : Net.Request) :
    ∃ s symbols, ∃ e₁ : EventLoop Peer,
      e₁ = { e with store := s, symbols := symbols, receipts := e.receiptsAfter request } ∧
      ((e.serve q request).1.content = 0 ∧ (e.serve q request).2 = e₁ ∨
        (e.serve q request).2 = e₁.recordServed q (e.serve q request).1.content) := by
  cases request with
  | manifest root => exact ⟨_, _, _, rfl, .inl ⟨rfl, rfl⟩⟩
  | chunk hash =>
    rw [EventLoop.serve]
    split
    · exact ⟨_, _, _, rfl, .inl ⟨rfl, rfl⟩⟩
    · split
      · exact ⟨_, _, _, rfl, .inr rfl⟩
      · exact ⟨_, _, _, rfl, .inl ⟨rfl, rfl⟩⟩
      · exact ⟨_, _, _, rfl, .inl ⟨rfl, rfl⟩⟩
  | symbol root index =>
    obtain ⟨s, symbols, h⟩ := e.ensureSymbols_frame root
    rw [EventLoop.serve, EventLoop.symbol_eq, h]
    cases (e.symbolSet root)[index.toNat]? with
    | none => exact ⟨_, _, _, rfl, .inl ⟨rfl, rfl⟩⟩
    | some bytes => exact ⟨_, _, _, rfl, .inr rfl⟩
  | symbols root start count =>
    obtain ⟨s, symbols, h⟩ := e.ensureSymbols_frame root
    rw [EventLoop.serve]
    dsimp only
    rw [EventLoop.symbolsRange_eq, h]
    dsimp only
    split
    · exact ⟨_, _, _, rfl, .inr rfl⟩
    · next hserved => exact ⟨_, _, _, rfl, .inl ⟨Nat.eq_zero_of_not_pos hserved, rfl⟩⟩
  | submitReceipt receipt =>
    rw [EventLoop.serve, EventLoop.receiptsAfter]
    split
    · exact ⟨e.store, e.symbols, _, rfl, .inl ⟨rfl, rfl⟩⟩
    · exact ⟨e.store, e.symbols, _, rfl, .inl ⟨rfl, rfl⟩⟩
  | getReceipts => exact ⟨e.store, e.symbols, _, rfl, .inl ⟨rfl, rfl⟩⟩

/-- Serving a request touches the store, the symbols, the ledger and the receipts alone. -/
theorem EventLoop.serve_frame (e : EventLoop Peer) (q : Peer) (request : Net.Request) :
    ∃ s symbols ledger dirty receipts, (e.serve q request).2 = { e with
      store := s, symbols := symbols, ledger := ledger, ledgerDirty := dirty
      receipts := receipts } := by
  obtain ⟨s, symbols, e₁, rfl, ⟨-, h⟩ | h⟩ := e.serve_cases q request
  · exact ⟨s, symbols, _, _, _, h⟩
  · exact ⟨s, symbols, _, _, _, h⟩

omit [Blake3] [RaptorQ] in
/-- Everything a response can do beside ending the wait for it: a chunk is credited to who sent it,
receipts that we asked a known peer for are credited as far as they count, and nothing else. -/
theorem EventLoop.onResponse_cases (e : EventLoop Peer) (q : Peer) (id : Nat)
    (response : Net.Response) :
    (∃ data, response = .chunk (some data) ∧ e.onResponse q id response = { e with
      ledger := e.ledger.recordReceived q data.length, ledgerDirty := true
      pendingInternal := e.pendingInternal.erase id }) ∨
    (∃ receipts key, response = .receipts receipts ∧
      e.pendingInternal.lookup id = some .getReceipts ∧ e.repPeers.lookup q = some key ∧
      e.onResponse q id response = { e with
        ledger := (creditable key [] receipts).foldl (fun l r => l.creditReceipt q r.bytes) e.ledger
        pendingInternal := e.pendingInternal.erase id }) ∨
    ((∀ data, response ≠ .chunk (some data)) ∧
      (∀ receipts, response = .receipts receipts →
        e.pendingInternal.lookup id = some .getReceipts → e.repPeers.lookup q = none) ∧
      e.onResponse q id response = { e with pendingInternal := e.pendingInternal.erase id }) := by
  cases response with
  | chunk data =>
    cases data with
    | some bytes =>
      refine .inl ⟨bytes, rfl, ?_⟩
      unfold EventLoop.onResponse
      dsimp only
      split <;> rfl
    | none =>
      refine .inr (.inr ⟨by simp, by simp, ?_⟩)
      unfold EventLoop.onResponse
      dsimp only
      split <;> rfl
  | receipts receipts =>
    unfold EventLoop.onResponse
    dsimp only [EventLoop.creditChunk]
    split
    · next hpending =>
      rw [EventLoop.handleReceiptsResponse]
      split
      · next hkey => exact .inr (.inr ⟨by simp, fun _ _ _ => hkey, rfl⟩)
      · next key hkey => exact .inr (.inl ⟨receipts, key, rfl, hpending, hkey, rfl⟩)
    · next hpending =>
      refine .inr (.inr ⟨by simp, fun _ _ h => ?_, rfl⟩)
      rw [hpending] at h
      cases h
    · next hpending =>
      refine .inr (.inr ⟨by simp, fun _ _ h => ?_, rfl⟩)
      rw [hpending] at h
      cases h
  | _ =>
    refine .inr (.inr ⟨by simp, by simp, ?_⟩)
    unfold EventLoop.onResponse
    dsimp only
    split <;> rfl

omit [Blake3] [RaptorQ] in
/-- A response ends the wait for it, and touches the ledger beside. -/
theorem EventLoop.onResponse_frame (e : EventLoop Peer) (q : Peer) (id : Nat)
    (response : Net.Response) : ∃ ledger dirty, e.onResponse q id response = { e with
      ledger := ledger, ledgerDirty := dirty, pendingInternal := e.pendingInternal.erase id } := by
  obtain ⟨_, -, h⟩ | ⟨_, _, -, -, -, h⟩ | ⟨-, -, h⟩ := e.onResponse_cases q id response
  · exact ⟨_, _, h⟩
  · exact ⟨_, _, h⟩
  · exact ⟨_, _, h⟩

omit [Blake3] [RaptorQ] in
/-- A peer that is identified becomes known, and may be asked for its receipts. -/
theorem EventLoop.onIdentified_frame (e : EventLoop Peer) (q : Peer) (key : RepPeerId) :
    ∃ pulled pending next, e.onIdentified q key = { e with
      repPeers := e.repPeers.insert q key, receiptsPulledFrom := pulled
      pendingInternal := pending, nextRequest := next } := by
  unfold EventLoop.onIdentified
  dsimp only
  split
  · exact ⟨_, _, _, rfl⟩
  · exact ⟨_, _, _, rfl⟩

/-- The command to submit a receipt touches the epochs and the requests alone. -/
theorem EventLoop.submitReceipt_frame {e e' : EventLoop Peer} {q : Peer} {bytes : UInt64}
    (h : e.step (.submitReceipt q bytes) = some e') : ∃ epoch pending next, e' = { e with
      nextReceiptEpoch := epoch, pendingInternal := pending, nextRequest := next } := by
  rw [EventLoop.step] at h
  split at h
  · cases h
    exact ⟨_, _, _, rfl⟩
  · cases h
    exact ⟨_, _, _, rfl⟩

/-- The tick touches the flag alone. -/
theorem EventLoop.saveTick_frame {e e' : EventLoop Peer} {saved : Bool}
    (h : e.step (.saveTick saved) = some e') : ∃ dirty, e' = { e with ledgerDirty := dirty } := by
  rw [EventLoop.step] at h
  split at h
  · cases h
    exact ⟨_, rfl⟩
  · cases h
    exact ⟨_, rfl⟩

/-- Only commands change the threshold and what is provided. -/
theorem EventLoop.step_commanded {e e' : EventLoop Peer} {ev : NodeEvent Peer}
    (h : e.step ev = some e') :
    (e'.chokeThreshold = e.chokeThreshold ∨ ∃ t, ev = .setChokeThreshold t) ∧
      (e'.provided = e.provided ∨ (∃ root bytes, ev = .provide root bytes) ∨
        ∃ root, ev = .unprovide root) := by
  cases ev with
  | request q request =>
    cases h
    obtain ⟨s, symbols, ledger, dirty, receipts, h⟩ := e.serve_frame q request
    rw [h]
    exact ⟨.inl rfl, .inl rfl⟩
  | response q id response =>
    cases h
    obtain ⟨ledger, dirty, h⟩ := e.onResponse_frame q id response
    rw [h]
    exact ⟨.inl rfl, .inl rfl⟩
  | identified q key =>
    cases h
    obtain ⟨pulled, pending, next, h⟩ := e.onIdentified_frame q key
    rw [h]
    exact ⟨.inl rfl, .inl rfl⟩
  | provide root bytes => cases h; exact ⟨.inl rfl, .inr (.inl ⟨root, bytes, rfl⟩)⟩
  | unprovide root => cases h; exact ⟨.inl rfl, .inr (.inr ⟨root, rfl⟩)⟩
  | setChokeThreshold t => cases h; exact ⟨.inr ⟨t, rfl⟩, .inl rfl⟩
  | submitReceipt q bytes =>
    obtain ⟨epoch, pending, next, rfl⟩ := EventLoop.submitReceipt_frame h
    exact ⟨.inl rfl, .inl rfl⟩
  | saveTick saved =>
    obtain ⟨dirty, rfl⟩ := EventLoop.saveTick_frame h
    exact ⟨.inl rfl, .inl rfl⟩
  | _ => cases h; exact ⟨.inl rfl, .inl rfl⟩

/-! ## Amounts -/

/-- The content bytes that an event gives to the peer. -/
def EventLoop.given (p : Peer) (e : EventLoop Peer) : NodeEvent Peer → Nat
  | .request q request => if q = p then (e.serve q request).1.content else 0
  | _ => 0

/-- The chunk bytes that an event brings from the peer. -/
def EventLoop.taken (p : Peer) (_ : EventLoop Peer) : NodeEvent Peer → Nat
  | .response q _ (.chunk (some data)) => if q = p then data.length else 0
  | _ => 0

/-- The receipts that an event credits to the peer. -/
def EventLoop.receiptsFor (p : Peer) (e : EventLoop Peer) : NodeEvent Peer → List Receipt
  | .response q id (.receipts receipts) =>
    if q = p ∧ e.pendingInternal.lookup id = some .getReceipts then
      match e.repPeers.lookup q with
      | none => []
      | some expectedServer => creditable expectedServer [] receipts
    else []
  | _ => []

/-- The receipt credit that an event adds to the peer. -/
def EventLoop.vouched (p : Peer) (e : EventLoop Peer) (ev : NodeEvent Peer) : Nat :=
  ((e.receiptsFor p ev).map fun r => r.bytes.toNat).sum

/-! ## The books -/

/-- A request changes no counter but what the peer that asks was given. -/
theorem EventLoop.serve_counters (e : EventLoop Peer) (p q : Peer) (request : Net.Request) :
    (e.serve q request).2.ledger.counters p =
      (e.ledger.counters p).add 0 (if q = p then (e.serve q request).1.content else 0) 0 := by
  obtain ⟨s, symbols, e₁, rfl, ⟨hnone, h⟩ | h⟩ := e.serve_cases q request
  · rw [h, hnone, ite_self, Counters.add_zero]
  · rw [h, EventLoop.recordServed, Ledger.recordServed]
    by_cases hq : q = p
    · subst hq
      simp [Counters.add]
    · rw [Ledger.counters_update_of_ne _ _ (Ne.symm hq), if_neg hq, Counters.add_zero]

omit [Blake3] [Ed25519] [RaptorQ] in
/-- Receipts credited one after the other are credited together, and to nobody else. -/
theorem Ledger.counters_creditReceipts (p q : Peer) (receipts : List Receipt) (l : Ledger Peer) :
    (receipts.foldl (fun l r => l.creditReceipt q r.bytes) l).counters p =
      (l.counters p).add 0 0 (if q = p then (receipts.map fun r => r.bytes.toNat).sum else 0) := by
  induction receipts generalizing l with
  | nil => simp
  | cons r receipts ih =>
    rw [List.foldl_cons, ih, Ledger.creditReceipt]
    by_cases hq : q = p
    · subst hq
      simp [Counters.add]
    · simp [hq, Ledger.counters_update_of_ne _ _ (Ne.symm hq)]

omit [Blake3] [RaptorQ] in
/-- A response changes what the peer gave us and is vouched for. -/
theorem EventLoop.onResponse_counters (e : EventLoop Peer) (p q : Peer) (id : Nat)
    (response : Net.Response) :
    (e.onResponse q id response).ledger.counters p =
      (e.ledger.counters p).add (e.taken p (.response q id response)) 0
        (e.vouched p (.response q id response)) := by
  obtain ⟨data, rfl, h⟩ | ⟨receipts, key, rfl, hpending, hkey, h⟩ | ⟨hchunk, hnone, h⟩ :=
    e.onResponse_cases q id response
  · have hvouched : e.vouched p (.response q id (.chunk (some data))) = 0 := rfl
    rw [h, hvouched, EventLoop.taken, Ledger.recordReceived]
    by_cases hq : q = p
    · subst hq
      simp [Counters.add]
    · rw [Ledger.counters_update_of_ne _ _ (Ne.symm hq), if_neg hq, Counters.add_zero]
  · have htaken : e.taken p (.response q id (.receipts receipts)) = 0 := rfl
    rw [h, htaken, Ledger.counters_creditReceipts, EventLoop.vouched, EventLoop.receiptsFor]
    by_cases hq : q = p
    · rw [if_pos hq, if_pos ⟨hq, hpending⟩, hkey]
    · rw [if_neg hq, if_neg fun hboth => hq hboth.1]
      rfl
  · have htaken : e.taken p (.response q id response) = 0 := by
      unfold EventLoop.taken
      split
      · next heq =>
        cases heq
        exact absurd rfl (hchunk _)
      · rfl
    have hvouched : e.vouched p (.response q id response) = 0 := by
      unfold EventLoop.vouched EventLoop.receiptsFor
      split
      · next heq =>
        cases heq
        split
        · next hboth =>
          rw [hnone _ rfl hboth.2]
          rfl
        · rfl
      · rfl
    rw [h, htaken, hvouched, Counters.add_zero]

/-- Every event keeps the books: the counters of a peer grow by what it gave, what it was given and
what it was vouched for. -/
theorem EventLoop.step_counters (p : Peer) (e : EventLoop Peer) (ev : NodeEvent Peer)
    (e' : EventLoop Peer) (h : e.step ev = some e') :
    e'.ledger.counters p =
      (e.ledger.counters p).add (e.taken p ev) (e.given p ev) (e.vouched p ev) := by
  have hsame (hl : e'.ledger = e.ledger) (ht : e.taken p ev = 0) (hg : e.given p ev = 0)
      (hv : e.vouched p ev = 0) : e'.ledger.counters p =
        (e.ledger.counters p).add (e.taken p ev) (e.given p ev) (e.vouched p ev) := by
    rw [hl, ht, hg, hv, Counters.add_zero]
  cases ev with
  | request q request => cases h; exact e.serve_counters p q request
  | response q id response => cases h; exact e.onResponse_counters p q id response
  | identified q key =>
    cases h
    obtain ⟨pulled, pending, next, h⟩ := e.onIdentified_frame q key
    refine hsame ?_ rfl rfl rfl
    rw [h]
  | submitReceipt q bytes =>
    obtain ⟨epoch, pending, next, rfl⟩ := EventLoop.submitReceipt_frame h
    exact hsame rfl rfl rfl rfl
  | saveTick saved =>
    obtain ⟨dirty, rfl⟩ := EventLoop.saveTick_frame h
    exact hsame rfl rfl rfl rfl
  | _ => cases h; exact hsame rfl rfl rfl rfl

/-- Every run keeps the books, up to saturation. -/
theorem EventLoop.runs_counters (p : Peer) {e e' : EventLoop Peer} {events : List (NodeEvent Peer)}
    (hrun : runs EventLoop.step e events = some e') :
    (e'.ledger.counters p).servedToUs.toNat = min ((e.ledger.counters p).servedToUs.toNat +
        total EventLoop.step (EventLoop.taken p) e events) (2 ^ 64 - 1) ∧
      (e'.ledger.counters p).weServed.toNat = min ((e.ledger.counters p).weServed.toNat +
        total EventLoop.step (EventLoop.given p) e events) (2 ^ 64 - 1) ∧
      (e'.ledger.counters p).creditedByReceipts.toNat =
        min ((e.ledger.counters p).creditedByReceipts.toNat +
          total EventLoop.step (EventLoop.vouched p) e events) (2 ^ 64 - 1) := by
  have hle (n : UInt64) : n.toNat ≤ 2 ^ 64 - 1 := Nat.le_sub_one_of_lt n.toNat_lt
  refine ⟨runs_total (fun e => (e.ledger.counters p).servedToUs.toNat)
      (fun s ev s' h => ?_) (hle _) hrun,
    runs_total (fun e => (e.ledger.counters p).weServed.toNat)
      (fun s ev s' h => ?_) (hle _) hrun,
    runs_total (fun e => (e.ledger.counters p).creditedByReceipts.toNat)
      (fun s ev s' h => ?_) (hle _) hrun⟩ <;>
  · rw [EventLoop.step_counters p s ev s' h]
    exact toNat_saturatingAdd _ _

/-! ## The policy -/

/-- A request for symbols by the peer while it is choked finds none. -/
def EventLoop.Reciprocal (p : Peer) (e : EventLoop Peer) : NodeEvent Peer → Prop
  | .request q (.symbol root index) =>
    q = p → e.chokes p = true → (e.symbolSet root)[index.toNat]? = none
  | .request q (.symbols root start count) =>
    q = p → e.chokes p = true →
      symbolsIn (e.symbolSet root) start.toNat (min count MAX_SYMBOLS_PER_BATCH).toNat = []
  | _ => True

instance EventLoop.decidableReciprocal (p : Peer) (e : EventLoop Peer) :
    ∀ ev : NodeEvent Peer, Decidable (e.Reciprocal p ev)
  | .request q (.symbol root index) => inferInstanceAs (Decidable (q = p → e.chokes p = true →
      (e.symbolSet root)[index.toNat]? = none))
  | .request q (.symbols root start count) => inferInstanceAs (Decidable (q = p →
      e.chokes p = true →
        symbolsIn (e.symbolSet root) start.toNat (min count MAX_SYMBOLS_PER_BATCH).toNat = []))
  | .request _ (.manifest _) | .request _ (.chunk _) | .request _ (.submitReceipt _)
  | .request _ .getReceipts | .response .. | .outboundFailure _ | .identified ..
  | .connectionClosed _ | .provide .. | .unprovide _ | .setChokeThreshold _ | .sendRequest ..
  | .submitReceipt .. | .saveTick _ | .storage .. => .isTrue trivial

/-- Under the condition nothing is given to a choked peer. -/
theorem EventLoop.given_eq_zero {p : Peer} {e : EventLoop Peer} {ev : NodeEvent Peer}
    (h : e.Reciprocal p ev) (hchoked : e.chokes p = true) : e.given p ev = 0 := by
  cases ev with
  | request q request =>
    rw [EventLoop.given]
    split
    · next hq =>
      subst hq
      cases request with
      | manifest root => rfl
      | chunk hash => rw [EventLoop.serve, if_pos hchoked]; rfl
      | symbol root index =>
        have hnone : (e.symbolSet root)[index.toNat]? = none := h rfl hchoked
        rw [EventLoop.serve, EventLoop.symbol_eq, hnone]
        rfl
      | symbols root start count =>
        have hnil : symbolsIn (e.symbolSet root) start.toNat _ = [] := h rfl hchoked
        rw [EventLoop.serve]
        dsimp only
        rw [EventLoop.symbolsRange_eq, hnil]
        rfl
      | submitReceipt receipt => rw [EventLoop.serve]; split <;> rfl
      | getReceipts => rfl
    · rfl
  | _ => rfl

omit [Blake3] [RaptorQ] in
/-- A peer that is not choked has a reputation of at least the threshold, negated. -/
theorem EventLoop.chokes_eq_false_iff {p : Peer} {e : EventLoop Peer} {T : Nat}
    (hT : e.chokeThreshold.toInt = T) :
    e.chokes p = false ↔ -(T : Int) ≤ e.ledger.reputation p := by
  have hlt := e.chokeThreshold.toInt_lt
  rw [EventLoop.chokes, decide_eq_false_iff_not, saturatingNeg, hT]
  omega

/-- What holds along a run: the threshold stands, and what the peer was given is within the bound,
or is what it had been given at the start. -/
structure EventLoop.Bounded (p : Peer) (T M start : Nat) (e : EventLoop Peer) : Prop where
  threshold : e.chokeThreshold.toInt = T
  given : (e.ledger.counters p).weServed.toNat ≤
    max start ((e.ledger.counters p).servedToUs.toNat +
      (e.ledger.counters p).creditedByReceipts.toNat + T + M)

/-- One event keeps the bound. -/
theorem EventLoop.step_bounded {p : Peer} {T M start : Nat} (e : EventLoop Peer)
    (ev : NodeEvent Peer) (e' : EventLoop Peer) (h : e.Bounded p T M start)
    (hok : (e.Reciprocal p ev ∧ e.given p ev ≤ M) ∧ ∀ t, ev ≠ .setChokeThreshold t)
    (hstep : e.step ev = some e') : e'.Bounded p T M start := by
  obtain ⟨⟨hrecip, hM⟩, hset⟩ := hok
  have hthreshold : e'.chokeThreshold = e.chokeThreshold := by
    rcases (EventLoop.step_commanded hstep).1 with heq | ⟨t, ht⟩
    · exact heq
    · exact absurd ht (hset t)
  refine ⟨hthreshold ▸ h.threshold, ?_⟩
  have hbound := h.given
  have htaken := (e.ledger.counters p).servedToUs.toNat_lt
  have hvouched := (e.ledger.counters p).creditedByReceipts.toNat_lt
  rw [EventLoop.step_counters p e ev e' hstep]
  simp only [Counters.add, toNat_saturatingAdd]
  cases hc : e.chokes p with
  | true =>
    rw [EventLoop.given_eq_zero hrecip hc]
    omega
  | false =>
    have hlt := e.chokeThreshold.toInt_lt
    have hrep := (EventLoop.chokes_eq_false_iff h.threshold).mp hc
    have hnet := Ledger.le_net_of_le_reputation (by rw [h.threshold] at hlt; omega) hrep
    unfold Counters.net at hnet
    omega

/-! ## The bound -/

/-- The choke bounds what a peer can take, in every run in which no choked peer asks for symbols
that the node has: content is given only at a reputation of at least `-T`, and what was ever given
exceeds neither what it was at the start nor what the peer gave and was vouched for, plus `T`, plus
the largest response of the run. -/
theorem choke_bounds_taker {p : Peer} {e e' : EventLoop Peer} {events : List (NodeEvent Peer)}
    {T M : Nat} (hT : e.chokeThreshold.toInt = T)
    (hset : ∀ ev ∈ events, ∀ t, ev ≠ .setChokeThreshold t)
    (hM : Along EventLoop.step (fun e ev => e.given p ev ≤ M) e events)
    (hrecip : Along EventLoop.step (EventLoop.Reciprocal p) e events)
    (hrun : runs EventLoop.step e events = some e')
    (hsat : (e.ledger.counters p).weServed.toNat + total EventLoop.step (EventLoop.given p) e events
      < 2 ^ 64) :
    Along EventLoop.step (fun e ev => 0 < e.given p ev → -(T : Int) ≤ e.ledger.reputation p)
        e events ∧
      (e.ledger.counters p).weServed.toNat + total EventLoop.step (EventLoop.given p) e events ≤
        max (e.ledger.counters p).weServed.toNat
          ((e.ledger.counters p).servedToUs.toNat +
            total EventLoop.step (EventLoop.taken p) e events +
            ((e.ledger.counters p).creditedByReceipts.toNat +
              total EventLoop.step (EventLoop.vouched p) e events) + T + M) := by
  have hstart : e.Bounded p T M (e.ledger.counters p).weServed.toNat := ⟨hT, Nat.le_max_left _ _⟩
  have hok := (hrecip.and hM).and (along_of_mem e hset)
  refine ⟨(Along.invariant EventLoop.step_bounded hstart hok).mono ?_, ?_⟩
  · rintro e ev ⟨hb, ⟨hr, -⟩, -⟩ hpos
    cases hc : e.chokes p with
    | true => rw [EventLoop.given_eq_zero hr hc] at hpos; exact absurd hpos (Nat.lt_irrefl 0)
    | false => exact (EventLoop.chokes_eq_false_iff hb.threshold).mp hc
  · have hend := (runs_invariant EventLoop.step_bounded hstart hok hrun).given
    obtain ⟨htaken, hgiven, hvouched⟩ := EventLoop.runs_counters p hrun
    rw [htaken, hgiven, hvouched] at hend
    omega

end

/-! ## One peer, with and against the choke -/

/-- A node that has and provides the one-byte content `x`, and chokes every net taker. -/
def nodeOfX : @EventLoop Unit noSignatures :=
  let _ := blake3OfX
  let _ := minFastCDC
  let _ := noSignatures
  let stored := (Store.fresh.put (Disk.fresh ∅ ∅ some) [120]).2
  { disk := stored.1
    store := stored.2
    provided := Finmap.singleton rootOfX (Manifest.fromFiles [(dataPath, [120])] none).toNptp
    ledger := ⟨∅⟩
    ledgerDirty := false
    chokeThreshold := 0
    repIdentity := .ofByte 0
    repPeers := ∅
    receiptsPulledFrom := ∅
    pendingInternal := ∅
    receipts := []
    symbols := ∅
    nextReceiptEpoch := 0
    nextRequest := 0 }

/-- The request for a batch of the symbols of `x`. -/
def symbolsOfX : NodeEvent Unit := .request () (.symbols rootOfX 0 128)

/-- The request for its chunk. -/
def chunkOfX : NodeEvent Unit := .request () (.chunk digestOfX)

/-- A peer sends a chunk, is given symbols, and is refused a chunk. -/
def giveAndTake : List (NodeEvent Unit) :=
  [.response () 0 (.chunk (some [120])), symbolsOfX, chunkOfX]

theorem giveAndTake_reciprocal :
    Along (@EventLoop.step blake3OfX noSignatures oneSymbolCode Unit _)
      (@EventLoop.Reciprocal blake3OfX noSignatures oneSymbolCode Unit _ ()) nodeOfX
      giveAndTake := by
  decide +kernel

theorem giveAndTake_given_le :
    Along (@EventLoop.step blake3OfX noSignatures oneSymbolCode Unit _)
      (fun e ev => @EventLoop.given blake3OfX noSignatures oneSymbolCode Unit _ () e ev ≤ 78260)
      nodeOfX giveAndTake := by
  decide +kernel

/-- The bound for this peer: one chunk byte given, one response of 65 symbols taken. -/
theorem choke_bounds_one_response :
    let _ := blake3OfX
    let _ := noSignatures
    let _ := oneSymbolCode
    total EventLoop.step (EventLoop.given ()) nodeOfX giveAndTake ≤
      max 0 (total EventLoop.step (EventLoop.taken ()) nodeOfX giveAndTake +
        total EventLoop.step (EventLoop.vouched ()) nodeOfX giveAndTake + 0 + 78260) := by
  let _ := blake3OfX
  let _ := noSignatures
  let _ := oneSymbolCode
  have hgiven : total EventLoop.step (EventLoop.given ()) nodeOfX giveAndTake = 78260 := by
    decide +kernel
  have hrun : ∃ e, runs EventLoop.step nodeOfX giveAndTake = some e := ⟨_, rfl⟩
  obtain ⟨e, hrun⟩ := hrun
  have hbound := (choke_bounds_taker (p := ()) (T := 0) (M := 78260) (by decide +kernel)
    (by simp [giveAndTake, symbolsOfX, chunkOfX]) giveAndTake_given_le giveAndTake_reciprocal hrun
    (by rw [hgiven]; decide +kernel)).2
  have hstart : nodeOfX.ledger.counters () = .default := rfl
  simpa [hstart, Counters.default] using hbound

/-- At threshold 0 a peer takes the chunk, whose byte it never gave back, and is then given the
symbols again and again. -/
theorem choked_peer_gets_symbols :
    let _ := blake3OfX
    let _ := noSignatures
    let _ := oneSymbolCode
    (runs EventLoop.step nodeOfX [chunkOfX]).map (fun e =>
        (e.chokeThreshold.toInt, e.ledger.reputation (), e.given () symbolsOfX)) =
      some (0, -1, 78260) ∧
    Along EventLoop.step (fun e ev => e.given () ev ≤ 78260) nodeOfX
      [chunkOfX, symbolsOfX, symbolsOfX] ∧
    total EventLoop.step (EventLoop.taken ()) nodeOfX [chunkOfX, symbolsOfX, symbolsOfX] +
        total EventLoop.step (EventLoop.vouched ()) nodeOfX [chunkOfX, symbolsOfX, symbolsOfX] +
        0 + 78260 <
      total EventLoop.step (EventLoop.given ()) nodeOfX [chunkOfX, symbolsOfX, symbolsOfX] := by
  decide +kernel

end Np2ptp
