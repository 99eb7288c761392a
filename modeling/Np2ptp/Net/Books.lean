import Np2ptp.Net.Choke

/-!
# The books of two nodes

Two nodes that send each other requests, and the requests and responses on their way between them.
What one node notes as given and the other as taken differ by what is still on its way and by the
symbols: both the request for one symbol and the request for a batch note what they give, and no
response but a chunk is credited to its sender (`books_balance`). Once every response has arrived
the books agree if and only if no request for symbols was answered with any (`books_agree_iff`).
-/

namespace Np2ptp

open Lib

/-- The two ends. -/
inductive Side where
  | left
  | right
  deriving DecidableEq

/-- The other end. -/
def Side.other : Side → Side
  | .left => .right
  | .right => .left

@[simp] theorem Side.other_other (x : Side) : x.other.other = x := by
  cases x <;> rfl

@[simp] theorem Side.other_ne (x : Side) : x.other ≠ x := by
  cases x <;> decide

/-- Two nodes, the requests of each that the other has not read yet, and the responses to its
requests that each has not read yet. -/
structure Pair (Peer : Type) [Ed25519] where
  node : Side → EventLoop Peer
  requests : Side → List (Nat × Net.Request)
  responses : Side → List (Nat × Net.Response)

/-- What happens to two nodes. -/
inductive PairEvent (Peer : Type) where
  /-- The node `x` sends a request to the other one. -/
  | send (x : Side) (request : Net.Request)
  /-- A request of `x` arrives and is answered. -/
  | serve (x : Side) (i : Nat)
  /-- A response to `x` arrives. -/
  | deliver (x : Side) (i : Nat)
  /-- Something happens to `x` that is nothing between the two. -/
  | own (x : Side) (ev : NodeEvent Peer)

/-- The event is none between a node and the peer. -/
def NodeEvent.Foreign {Peer : Type} (p : Peer) : NodeEvent Peer → Prop
  | .request q _ | .response q _ _ | .sendRequest q _ | .identified q _ | .submitReceipt q _ =>
    q ≠ p
  | _ => True

instance NodeEvent.decidableForeign {Peer : Type} [DecidableEq Peer] (p : Peer) :
    ∀ ev : NodeEvent Peer, Decidable (ev.Foreign p)
  | .request q _ | .response q _ _ | .sendRequest q _ | .identified q _ | .submitReceipt q _ =>
    inferInstanceAs (Decidable (q ≠ p))
  | .outboundFailure _ | .connectionClosed _ | .provide .. | .unprovide _ | .setChokeThreshold _
  | .saveTick _ | .storage .. => .isTrue trivial

/-- The bytes of a chunk response. -/
def Net.Response.chunkBytes : Net.Response → Nat
  | .chunk (some data) => data.length
  | _ => 0

/-- The bytes of the chunk responses among some. -/
def chunkBytesOf (responses : List (Nat × Net.Response)) : Nat :=
  (responses.map fun r => r.2.chunkBytes).sum

section

variable [Blake3] [Ed25519] [RaptorQ] {Peer : Type} [DecidableEq Peer]

/-- The symbol bytes that a node answers a request with. -/
def EventLoop.symbolBytes (e : EventLoop Peer) : Net.Request → Nat
  | .symbol root index => ((e.symbolSet root)[index.toNat]?.map List.length).getD 0
  | .symbols root start count => ((symbolsIn (e.symbolSet root) start.toNat
      (min count MAX_SYMBOLS_PER_BATCH).toNat).map List.length).sum
  | _ => 0

/-- One event of two nodes, each known to the other as a peer. -/
def Pair.step (peer : Side → Peer) (w : Pair Peer) : PairEvent Peer → Option (Pair Peer)
  | .send x request => ((w.node x).step (.sendRequest (peer x.other) request)).map fun e =>
      { w with
        node := Function.update w.node x e
        requests := Function.update w.requests x
          (w.requests x ++ [((w.node x).nextRequest, request)]) }
  | .serve x i =>
    match (w.requests x)[i]? with
    | none => none
    | some (id, request) =>
      let answer := (w.node x.other).serve (peer x) request
      some
        { node := Function.update w.node x.other answer.2
          requests := Function.update w.requests x ((w.requests x).eraseIdx i)
          responses := Function.update w.responses x (w.responses x ++ [(id, answer.1)]) }
  | .deliver x i =>
    match (w.responses x)[i]? with
    | none => none
    | some (id, response) =>
      some { w with
        node := Function.update w.node x ((w.node x).onResponse (peer x.other) id response)
        responses := Function.update w.responses x ((w.responses x).eraseIdx i) }
  | .own x ev =>
    if ev.Foreign (peer x.other) then
      ((w.node x).step ev).map fun e => { w with node := Function.update w.node x e }
    else none

/-! ## Amounts -/

/-- The chunk bytes that an event makes the other node give to `x`. -/
def Pair.chunksTo (peer : Side → Peer) (x : Side) (w : Pair Peer) : PairEvent Peer → Nat
  | .serve y i =>
    if y = x then
      match (w.requests y)[i]? with
      | none => 0
      | some (_, request) => ((w.node y.other).serve (peer y) request).1.chunkBytes
    else 0
  | _ => 0

/-- The symbol bytes that an event makes the other node give to `x`. -/
def Pair.symbolsTo (x : Side) (w : Pair Peer) : PairEvent Peer → Nat
  | .serve y i =>
    if y = x then
      match (w.requests y)[i]? with
      | none => 0
      | some (_, request) => (w.node y.other).symbolBytes request
    else 0
  | _ => 0

/-- The chunk bytes that an event brings to `x`. -/
def Pair.arrives (x : Side) (w : Pair Peer) : PairEvent Peer → Nat
  | .deliver y i =>
    if y = x then
      match (w.responses y)[i]? with
      | none => 0
      | some (_, response) => response.chunkBytes
    else 0
  | _ => 0

/-- An answer is a chunk or made of symbols. -/
theorem EventLoop.serve_content (e : EventLoop Peer) (q : Peer) (request : Net.Request) :
    (e.serve q request).1.content = (e.serve q request).1.chunkBytes + e.symbolBytes request := by
  cases request with
  | manifest root => rfl
  | chunk hash =>
    rw [EventLoop.serve]
    split
    · rfl
    · split <;> rfl
  | symbol root index =>
    rw [EventLoop.serve, EventLoop.symbol_eq, EventLoop.symbolBytes]
    cases (e.symbolSet root)[index.toNat]? with
    | none => rfl
    | some bytes => exact (Nat.zero_add _).symm
  | symbols root start count =>
    rw [EventLoop.serve, EventLoop.symbolBytes]
    dsimp only
    rw [EventLoop.symbolsRange_eq]
    exact (Nat.zero_add _).symm
  | submitReceipt receipt =>
    rw [EventLoop.serve]
    split <;> rfl
  | getReceipts => rfl

omit [Blake3] [RaptorQ] in
theorem EventLoop.taken_response (p : Peer) (e : EventLoop Peer) (id : Nat)
    (response : Net.Response) : e.taken p (.response p id response) = response.chunkBytes := by
  unfold EventLoop.taken Net.Response.chunkBytes
  split
  · next h =>
    cases h
    exact if_pos rfl
  · next hne =>
    split
    · exact absurd rfl (hne _ _ _)
    · rfl

/-- An event that is none of a peer's leaves its counters alone. -/
theorem EventLoop.step_foreign {e e' : EventLoop Peer} {p : Peer} {ev : NodeEvent Peer}
    (hev : ev.Foreign p) (h : e.step ev = some e') :
    e'.ledger.counters p = e.ledger.counters p := by
  have hcounters := EventLoop.step_counters p e ev e' h
  have hnone : e.taken p ev = 0 ∧ e.given p ev = 0 ∧ e.vouched p ev = 0 := by
    cases ev with
    | request q request =>
      exact ⟨rfl, if_neg hev, rfl⟩
    | response q id response =>
      have hne : q ≠ p := hev
      refine ⟨?_, rfl, ?_⟩
      · unfold EventLoop.taken
        split
        · next h => cases h; exact if_neg hne
        · rfl
      · unfold EventLoop.vouched EventLoop.receiptsFor
        split
        · next h => cases h; simp [hne]
        · rfl
    | _ => exact ⟨rfl, rfl, rfl⟩
  rw [hcounters, hnone.1, hnone.2.1, hnone.2.2, Counters.add_zero]

/-! ## One event -/

variable {peer : Side → Peer} {w w' : Pair Peer}

/-- One event in the books that a node keeps of the other. -/
theorem Pair.step_counters {ev : PairEvent Peer} (h : w.step peer ev = some w') (x : Side) :
    ∃ vouched, (w'.node x).ledger.counters (peer x.other) =
      ((w.node x).ledger.counters (peer x.other)).add (w.arrives x ev)
        (w.chunksTo peer x.other ev + w.symbolsTo x.other ev) vouched := by
  have hsame (h : (w'.node x).ledger.counters (peer x.other) =
        (w.node x).ledger.counters (peer x.other)) (harrives : w.arrives x ev = 0)
      (hchunks : w.chunksTo peer x.other ev = 0) (hsymbols : w.symbolsTo x.other ev = 0) :
      ∃ vouched, (w'.node x).ledger.counters (peer x.other) =
        ((w.node x).ledger.counters (peer x.other)).add (w.arrives x ev)
          (w.chunksTo peer x.other ev + w.symbolsTo x.other ev) vouched :=
    ⟨0, by rw [h, harrives, hchunks, hsymbols, Nat.add_zero, Counters.add_zero]⟩
  cases ev with
  | send y request =>
    rw [Pair.step] at h
    obtain ⟨e, he, rfl⟩ := Option.map_eq_some_iff.mp h
    refine hsame ?_ rfl rfl rfl
    by_cases hxy : x = y
    · subst hxy
      cases he
      simp
    · simp [hxy]
  | serve y i =>
    rw [Pair.step] at h
    rcases hr : (w.requests y)[i]? with _ | ⟨id, request⟩
    · rw [hr] at h
      cases h
    · rw [hr] at h
      cases h
      by_cases hxy : x = y.other
      · subst hxy
        refine ⟨0, ?_⟩
        have hserve := (w.node y.other).serve_counters (peer y) (peer y) request
        rw [if_pos rfl, EventLoop.serve_content] at hserve
        simpa [Pair.chunksTo, Pair.symbolsTo, Pair.arrives, hr] using hserve
      · have hyx : y ≠ x.other := fun h => hxy (by rw [h, Side.other_other])
        refine hsame (by simp [hxy]) rfl ?_ ?_
        · exact if_neg hyx
        · exact if_neg hyx
  | deliver y i =>
    rw [Pair.step] at h
    rcases hr : (w.responses y)[i]? with _ | ⟨id, response⟩
    · rw [hr] at h
      cases h
    · rw [hr] at h
      cases h
      by_cases hxy : x = y
      · subst hxy
        refine ⟨(w.node x).vouched (peer x.other) (.response (peer x.other) id response), ?_⟩
        have hresponse := (w.node x).onResponse_counters (peer x.other) (peer x.other) id response
        rw [EventLoop.taken_response] at hresponse
        simpa [Pair.chunksTo, Pair.symbolsTo, Pair.arrives, hr] using hresponse
      · refine hsame (by simp [hxy]) ?_ rfl rfl
        exact if_neg (Ne.symm hxy)
  | own y ev =>
    rw [Pair.step] at h
    split at h
    · next hev =>
      obtain ⟨e, he, rfl⟩ := Option.map_eq_some_iff.mp h
      refine hsame ?_ rfl rfl rfl
      by_cases hxy : x = y
      · subst hxy
        simpa using EventLoop.step_foreign hev he
      · simp [hxy]
    · cases h

omit [Blake3] [Ed25519] [RaptorQ] [DecidableEq Peer] in
theorem chunkBytesOf_concat (responses : List (Nat × Net.Response)) (r : Nat × Net.Response) :
    chunkBytesOf (responses ++ [r]) = chunkBytesOf responses + r.2.chunkBytes := by
  simp [chunkBytesOf]

omit [Blake3] [Ed25519] [RaptorQ] [DecidableEq Peer] in
theorem chunkBytesOf_eraseIdx {r : Nat × Net.Response} :
    ∀ {responses : List (Nat × Net.Response)} {i : Nat}, responses[i]? = some r →
      chunkBytesOf (responses.eraseIdx i) + r.2.chunkBytes = chunkBytesOf responses
  | [], i, h => by simp at h
  | s :: responses, 0, h => by
    rw [List.getElem?_cons_zero, Option.some.injEq] at h
    subst h
    simp [chunkBytesOf, Nat.add_comm]
  | s :: responses, i + 1, h => by
    rw [List.getElem?_cons_succ] at h
    have ih := chunkBytesOf_eraseIdx h
    simp only [chunkBytesOf, List.eraseIdx_cons_succ, List.map_cons, List.sum_cons] at ih ⊢
    omega

/-- One event on the way to a node: what is given to it sets out, what arrives is there. -/
theorem Pair.step_inFlight {ev : PairEvent Peer} (h : w.step peer ev = some w') (x : Side) :
    chunkBytesOf (w'.responses x) + w.arrives x ev =
      chunkBytesOf (w.responses x) + w.chunksTo peer x ev := by
  cases ev with
  | send y request =>
    rw [Pair.step] at h
    obtain ⟨e, -, rfl⟩ := Option.map_eq_some_iff.mp h
    rfl
  | serve y i =>
    rw [Pair.step] at h
    rcases hr : (w.requests y)[i]? with _ | ⟨id, request⟩
    · rw [hr] at h
      cases h
    · rw [hr] at h
      cases h
      by_cases hxy : y = x
      · subst hxy
        simp [Pair.chunksTo, Pair.arrives, hr, chunkBytesOf_concat]
      · simp [Pair.chunksTo, Pair.arrives, hxy, Ne.symm hxy]
  | deliver y i =>
    rw [Pair.step] at h
    rcases hr : (w.responses y)[i]? with _ | ⟨id, response⟩
    · rw [hr] at h
      cases h
    · rw [hr] at h
      cases h
      by_cases hxy : y = x
      · subst hxy
        simpa [Pair.chunksTo, Pair.arrives, hr] using chunkBytesOf_eraseIdx hr
      · simp [Pair.chunksTo, Pair.arrives, hxy, Ne.symm hxy]
  | own y ev =>
    rw [Pair.step] at h
    split at h
    · obtain ⟨e, -, rfl⟩ := Option.map_eq_some_iff.mp h
      rfl
    · cases h

/-! ## A run -/

/-- Two nodes that have noted nothing of each other, with no response on its way. -/
structure Pair.Fresh (peer : Side → Peer) (w : Pair Peer) : Prop where
  ledger : ∀ x, (w.node x).ledger.counters (peer x.other) = .default
  responses : ∀ x, w.responses x = []

/-- The event gives symbol bytes to neither node. -/
def Pair.NoSymbols (w : Pair Peer) (ev : PairEvent Peer) : Prop := ∀ x, w.symbolsTo x ev = 0

instance Pair.decidableNoSymbols (w : Pair Peer) (ev : PairEvent Peer) :
    Decidable (w.NoSymbols ev) :=
  decidable_of_iff (w.symbolsTo .left ev = 0 ∧ w.symbolsTo .right ev = 0)
    ⟨fun h x => match x with | .left => h.1 | .right => h.2, fun h => ⟨h .left, h .right⟩⟩

/-- The bytes that the other node gives to `x` in a run. -/
def Pair.givenTo (peer : Side → Peer) (x : Side) (w : Pair Peer) (ev : PairEvent Peer) : Nat :=
  w.chunksTo peer x ev + w.symbolsTo x ev

variable {events : List (PairEvent Peer)}

/-- The books of a run, up to saturation: what one node notes as given to the other are the chunks
and the symbols, what the other notes as taken are the chunks that have arrived. -/
theorem Pair.runs_counters (hrun : runs (Pair.step peer) w events = some w')
    (hfresh : w.Fresh peer) (x : Side) :
    ((w'.node x.other).ledger.counters (peer x)).weServed.toNat =
        min (total (Pair.step peer) (Pair.givenTo peer x) w events) (2 ^ 64 - 1) ∧
      ((w'.node x).ledger.counters (peer x.other)).servedToUs.toNat =
        min (total (Pair.step peer) (Pair.arrives x) w events) (2 ^ 64 - 1) := by
  constructor
  · have hstart : ((w.node x.other).ledger.counters (peer x)).weServed = 0 := by
      have hledger := hfresh.ledger x.other
      rw [Side.other_other] at hledger
      rw [hledger]
      rfl
    have hadds : ∀ (s : Pair Peer) (ev : PairEvent Peer) (s' : Pair Peer),
        s.step peer ev = some s' →
        ((s'.node x.other).ledger.counters (peer x)).weServed.toNat =
          min (((s.node x.other).ledger.counters (peer x)).weServed.toNat + s.givenTo peer x ev)
            (2 ^ 64 - 1) := by
      intro s ev s' h
      obtain ⟨vouched, hstep⟩ := Pair.step_counters h x.other
      simp only [Side.other_other] at hstep
      rw [hstep]
      exact toNat_saturatingAdd _ _
    have hcount := runs_total
      (fun w : Pair Peer => ((w.node x.other).ledger.counters (peer x)).weServed.toNat) hadds
      (by simp [hstart]) hrun
    rw [hstart] at hcount
    simpa using hcount
  · have hstart : ((w.node x).ledger.counters (peer x.other)).servedToUs = 0 := by
      rw [hfresh.ledger x]
      rfl
    have hadds : ∀ (s : Pair Peer) (ev : PairEvent Peer) (s' : Pair Peer),
        s.step peer ev = some s' →
        ((s'.node x).ledger.counters (peer x.other)).servedToUs.toNat =
          min (((s.node x).ledger.counters (peer x.other)).servedToUs.toNat + s.arrives x ev)
            (2 ^ 64 - 1) := by
      intro s ev s' h
      obtain ⟨vouched, hstep⟩ := Pair.step_counters h x
      rw [hstep]
      exact toNat_saturatingAdd _ _
    have hcount := runs_total
      (fun w : Pair Peer => ((w.node x).ledger.counters (peer x.other)).servedToUs.toNat) hadds
      (by simp [hstart]) hrun
    rw [hstart] at hcount
    simpa using hcount

/-- Where the books differ: by the chunks that are on their way and by all symbols. -/
theorem Pair.books_balance (hrun : runs (Pair.step peer) w events = some w')
    (hfresh : w.Fresh peer) {x : Side}
    (hsat : total (Pair.step peer) (Pair.givenTo peer x) w events < 2 ^ 64) :
    ((w'.node x.other).ledger.counters (peer x)).weServed.toNat =
      ((w'.node x).ledger.counters (peer x.other)).servedToUs.toNat +
        chunkBytesOf (w'.responses x) + total (Pair.step peer) (Pair.symbolsTo x) w events := by
  obtain ⟨hgiven, htaken⟩ := Pair.runs_counters hrun hfresh x
  have hflight : chunkBytesOf (w'.responses x) + total (Pair.step peer) (Pair.arrives x) w events =
      chunkBytesOf (w.responses x) + total (Pair.step peer) (Pair.chunksTo peer x) w events :=
    runs_balance (fun w : Pair Peer => chunkBytesOf (w.responses x))
      (fun s ev s' h => Pair.step_inFlight h x) hrun
  have hsplit : total (Pair.step peer) (Pair.givenTo peer x) w events =
      total (Pair.step peer) (Pair.chunksTo peer x) w events +
        total (Pair.step peer) (Pair.symbolsTo x) w events := total_add _ _ events w
  have hnone : chunkBytesOf (w.responses x) = 0 := by
    rw [hfresh.responses x]
    rfl
  omega

/-- The two ends keep the same books if and only if no request is answered with symbols: for any
run of two nodes that began with nothing noted of each other, once every response has arrived, as
long as neither node gives so much that its counter saturates. -/
theorem books_agree_iff (hfresh : w.Fresh peer)
    (hrun : runs (Pair.step peer) w events = some w') (hdelivered : ∀ x, w'.responses x = [])
    (hsat : ∀ x, total (Pair.step peer) (Pair.givenTo peer x) w events < 2 ^ 64) :
    (∀ x, ((w'.node x.other).ledger.counters (peer x)).weServed =
        ((w'.node x).ledger.counters (peer x.other)).servedToUs) ↔
      Along (Pair.step peer) Pair.NoSymbols w events := by
  have hside : ∀ x, ((w'.node x.other).ledger.counters (peer x)).weServed =
        ((w'.node x).ledger.counters (peer x.other)).servedToUs ↔
      total (Pair.step peer) (Pair.symbolsTo x) w events = 0 := by
    intro x
    have hbalance := Pair.books_balance hrun hfresh (hsat x)
    have hnone : chunkBytesOf (w'.responses x) = 0 := by
      rw [hdelivered x]
      rfl
    rw [← UInt64.toNat_inj]
    omega
  constructor
  · intro h
    have hall : ∀ x, Along (Pair.step peer) (fun w ev => w.symbolsTo x ev = 0) w events :=
      fun x => total_eq_zero_iff.mp ((hside x).mp (h x))
    refine ((hall .left).and (hall .right)).mono fun s ev hs x => ?_
    cases x with
    | left => exact hs.1
    | right => exact hs.2
  · intro h x
    rw [hside x, total_eq_zero_iff]
    exact h.mono fun s ev hs => hs x

end

/-- Two nodes that both have the content `x` and know each other. -/
def pairOfX : @Pair Unit noSignatures :=
  let _ := noSignatures
  { node := fun _ => nodeOfX, requests := fun _ => [], responses := fun _ => [] }

/-- Each of them is given the chunk by the other. -/
def exchange : List (PairEvent Unit) :=
  [.send .right (.chunk digestOfX), .serve .right 0, .deliver .right 0,
    .send .left (.chunk digestOfX), .serve .left 0, .deliver .left 0]

/-- One of them is given the symbols. -/
def takeSymbols : List (PairEvent Unit) :=
  [.send .right (.symbols rootOfX 0 128), .serve .right 0, .deliver .right 0]

/-- After an exchange of one chunk for another the books agree. -/
theorem books_agree_x :
    let _ := blake3OfX
    let _ := noSignatures
    let _ := oneSymbolCode
    ∃ w', runs (Pair.step fun _ => ()) pairOfX exchange = some w' ∧
      ∀ x, ((w'.node x.other).ledger.counters ()).weServed =
        ((w'.node x).ledger.counters ()).servedToUs := by
  have hno : Along (@Pair.step blake3OfX noSignatures oneSymbolCode Unit _ fun _ => ())
      (@Pair.NoSymbols blake3OfX noSignatures oneSymbolCode Unit) pairOfX exchange := by
    decide +kernel
  have hleft : total (@Pair.step blake3OfX noSignatures oneSymbolCode Unit _ fun _ => ())
      (@Pair.givenTo blake3OfX noSignatures oneSymbolCode Unit _ (fun _ => ()) .left) pairOfX
      exchange < 2 ^ 64 := by
    decide +kernel
  have hright : total (@Pair.step blake3OfX noSignatures oneSymbolCode Unit _ fun _ => ())
      (@Pair.givenTo blake3OfX noSignatures oneSymbolCode Unit _ (fun _ => ()) .right) pairOfX
      exchange < 2 ^ 64 := by
    decide +kernel
  intro _ _ _
  have hrun : ∃ w', runs (Pair.step fun _ => ()) pairOfX exchange = some w' ∧
      w'.responses .left = [] ∧ w'.responses .right = [] := ⟨_, rfl, rfl, rfl⟩
  obtain ⟨w', hrun, hnoneLeft, hnoneRight⟩ := hrun
  refine ⟨w', hrun, (books_agree_iff ⟨fun _ => rfl, fun _ => rfl⟩ hrun ?_ ?_).mpr hno⟩
  · intro x
    cases x with
    | left => exact hnoneLeft
    | right => exact hnoneRight
  · intro x
    cases x with
    | left => exact hleft
    | right => exact hright

/-- The books differ by the symbols that were given. -/
theorem books_differ_by_symbols :
    let _ := blake3OfX
    let _ := noSignatures
    let _ := oneSymbolCode
    (runs (Pair.step fun _ => ()) pairOfX takeSymbols).map (fun w =>
        (w.responses .left, w.responses .right,
          ((w.node .left).ledger.counters ()).weServed.toNat,
          ((w.node .right).ledger.counters ()).servedToUs.toNat)) =
      some ([], [], 78260, 0) := by
  decide +kernel

end Np2ptp
