import Np2ptp.Lib.Replies
import Np2ptp.Net.Swarm

/-!
# Calls and their replies

The part of the event loop that callers wait for. A command that needs the network leaves its reply
channel in one of four maps, under the id of the request or of the Kademlia query that it starts,
and the events of the swarm find it there. Requests that the node makes for itself share the ids
and the events, in a map of their own. What the swarm is assumed to do is in the events: every
request ends in one response or one failure, and every query ends in a result that is the last step
or an error, after any number of results of its kind. Every caller is answered once, by the time
its request or query ends (`calls_answered`).
-/

namespace Np2ptp

open Lib

/-- What a Kademlia query is for. `start_providing` and the queries of Kademlia itself are of other
kinds. -/
inductive QueryKind where
  | getProviders
  | putRecord
  | getRecord
  | other
  deriving DecidableEq

/-- What a call waits for. A record that Kademlia refuses to put is answered at once. -/
inductive NetCall where
  | request (id : Nat)
  | query (kind : QueryKind) (id : Nat)
  | refused
  deriving DecidableEq

/-- What is sent through a reply channel. -/
inductive Reply (Peer : Type) where
  | response (r : Except NetError Net.Response)
  | providers (peers : List Peer)
  | stored (ok : Bool)
  | record (value : Option Bytes)

/-- `kad::QueryResult`. -/
inductive QueryResult (Peer : Type) where
  | foundProviders (providers : List Peer)
  | finishedProviders
  | providersFailed
  | foundRecord (value : Bytes)
  | finishedRecord
  | recordFailed
  | putRecord (ok : Bool)
  | other

/-- The kind of query that has such results. -/
def QueryResult.kind {Peer : Type} : QueryResult Peer → QueryKind
  | .foundProviders _ | .finishedProviders | .providersFailed => .getProviders
  | .foundRecord _ | .finishedRecord | .recordFailed => .getRecord
  | .putRecord _ => .putRecord
  | .other => .other

/-- The result is an error. -/
def QueryResult.failed {Peer : Type} : QueryResult Peer → Bool
  | .providersFailed | .recordFailed | .putRecord false => true
  | _ => false

/-- `EventLoop` with its reply channels, the requests and queries that the swarm is working on, and
what has been called for, sent and reported so far. A reply channel is the number of its call. -/
structure CallLoop (Peer : Type) [Ed25519] where
  swarm : Swarm Peer
  pendingReq : HashMap Nat Nat
  pendingProviders : HashMap Nat (List Peer × Nat)
  pendingPut : HashMap Nat Nat
  pendingGet : HashMap Nat Nat
  queries : HashMap Nat QueryKind
  /-- The id that Kademlia gives the next query. -/
  nextQuery : Nat
  calls : List NetCall
  sent : List (Nat × Reply Peer)
  reported : List (Nat × Peer)

/-- What happens to a node and its callers. -/
inductive CallEvent (Peer : Type) where
  /-- An event of the node. `sendRequest` is the command `Request`, with a reply channel. -/
  | node (ev : NodeEvent Peer)
  | findProviders
  /-- The command `PutRecord`, which Kademlia accepts or refuses. -/
  | putRecord (accepted : Bool)
  | getRecord
  /-- Kademlia starts a query that nobody waits for. -/
  | background
  /-- `kad::Event::OutboundQueryProgressed`. -/
  | progressed (query : Nat) (result : QueryResult Peer) (last : Bool)

namespace CallLoop

section

variable [Blake3] [Ed25519] [RaptorQ] {Peer : Type} [DecidableEq Peer]

/-- A node before its first event. -/
def new (node : EventLoop Peer) : CallLoop Peer :=
  ⟨⟨node, ∅⟩, ∅, ∅, ∅, ∅, ∅, 0, [], [], []⟩

/-- The reply channel of the next call. -/
def channel (w : CallLoop Peer) : Nat := w.calls.length

/-- `reply.send`. -/
def send (w : CallLoop Peer) (reply : Nat) (a : Reply Peer) : CallLoop Peer :=
  { w with sent := w.sent ++ [(reply, a)] }

/-- `if let Some(reply) = self.pending_req.remove(&request_id)`, and the reply. -/
def replyReq (w : CallLoop Peer) (id : Nat) (r : Except NetError Net.Response) : CallLoop Peer :=
  match w.pendingReq.lookup id with
  | none => w
  | some reply => { w with pendingReq := w.pendingReq.erase id }.send reply (.response r)

/-- The same for `pending_providers`: the reply is what was gathered. -/
def replyProviders (w : CallLoop Peer) (id : Nat) : CallLoop Peer :=
  match w.pendingProviders.lookup id with
  | none => w
  | some (acc, reply) =>
    { w with pendingProviders := w.pendingProviders.erase id }.send reply (.providers acc)

/-- The same for `pending_put`. -/
def replyPut (w : CallLoop Peer) (id : Nat) (ok : Bool) : CallLoop Peer :=
  match w.pendingPut.lookup id with
  | none => w
  | some reply => { w with pendingPut := w.pendingPut.erase id }.send reply (.stored ok)

/-- The same for `pending_get`. -/
def replyGet (w : CallLoop Peer) (id : Nat) (value : Option Bytes) : CallLoop Peer :=
  match w.pendingGet.lookup id with
  | none => w
  | some reply => { w with pendingGet := w.pendingGet.erase id }.send reply (.record value)

/-- `if !acc.contains(&p) { acc.push(p) }` for each of some peers. -/
def gatherProviders (acc providers : List Peer) : List Peer :=
  providers.foldl (fun acc p => if p ∈ acc then acc else acc ++ [p]) acc

/-- `if let Some((acc, _)) = self.pending_providers.get_mut(&id)`, and the loop over the
providers. -/
def gather (w : CallLoop Peer) (id : Nat) (providers : List Peer) : CallLoop Peer :=
  match w.pendingProviders.lookup id with
  | none => w
  | some (acc, reply) => { w with
      pendingProviders := w.pendingProviders.insert id (gatherProviders acc providers, reply) }

/-- `on_kad`. -/
def onKad (w : CallLoop Peer) (id : Nat) (last : Bool) : QueryResult Peer → CallLoop Peer
  | .foundProviders providers =>
    let w := w.gather id providers
    if last then w.replyProviders id else w
  | .finishedProviders => if last then w.replyProviders id else w
  | .providersFailed => w.replyProviders id
  | .foundRecord value => w.replyGet id (some value)
  | .finishedRecord => if last then w.replyGet id none else w
  | .recordFailed => w.replyGet id none
  | .putRecord ok => w.replyPut id ok
  | .other => w

/-- `on_rr` for a response: it goes to a caller unless the node made the request for itself. -/
def onResponse (w : CallLoop Peer) (internal : Option InternalRequest) (id : Nat)
    (response : Net.Response) : CallLoop Peer :=
  match internal with
  | some _ => w
  | none => w.replyReq id (.ok response)

/-- Kademlia starts a query. -/
def startQuery (w : CallLoop Peer) (kind : QueryKind) : CallLoop Peer :=
  { w with queries := w.queries.insert w.nextQuery kind, nextQuery := w.nextQuery + 1 }

/-- A caller waits. -/
def takeCall (w : CallLoop Peer) (call : NetCall) : CallLoop Peer :=
  { w with calls := w.calls ++ [call] }

/-- A query is over. -/
def endQuery (w : CallLoop Peer) (id : Nat) : CallLoop Peer :=
  { w with queries := w.queries.erase id }

/-- What a query has reported is noted. -/
def report (w : CallLoop Peer) (id : Nat) : QueryResult Peer → CallLoop Peer
  | .foundProviders providers => { w with reported := w.reported ++ providers.map (id, ·) }
  | _ => w

/-- A result of a query, which is over when it is the last step or an error. -/
def progress (w : CallLoop Peer) (id : Nat) (result : QueryResult Peer) (last : Bool) :
    CallLoop Peer :=
  let w := (w.report id result).onKad id last result
  if last ∨ result.failed then w.endQuery id else w

/-- What an event of the node means for the callers. -/
def react (w : CallLoop Peer) : NodeEvent Peer → CallLoop Peer
  | .sendRequest _ _ =>
    { w with pendingReq := w.pendingReq.insert w.swarm.node.nextRequest w.channel }.takeCall
      (.request w.swarm.node.nextRequest)
  | .response _ id response =>
    w.onResponse (w.swarm.node.pendingInternal.lookup id) id response
  | .outboundFailure id => w.replyReq id (.error .requestFailed)
  | _ => w

/-- One event. -/
def step (w : CallLoop Peer) : CallEvent Peer → Option (CallLoop Peer)
  | .node ev => (w.swarm.step ev).map fun swarm => { w.react ev with swarm := swarm }
  | .findProviders => some ({ w.startQuery .getProviders with
      pendingProviders := w.pendingProviders.insert w.nextQuery ([], w.channel) }.takeCall
        (.query .getProviders w.nextQuery))
  | .putRecord true => some ({ w.startQuery .putRecord with
      pendingPut := w.pendingPut.insert w.nextQuery w.channel }.takeCall
        (.query .putRecord w.nextQuery))
  | .putRecord false => some ((w.takeCall .refused).send w.channel (.stored false))
  | .getRecord => some ({ w.startQuery .getRecord with
      pendingGet := w.pendingGet.insert w.nextQuery w.channel }.takeCall
        (.query .getRecord w.nextQuery))
  | .background => some (w.startQuery .other)
  | .progressed query result last =>
    if w.queries.lookup query = some result.kind then some (w.progress query result last)
    else none

/-! ## The reply channels as a desk -/

/-- The reply channel that a pending map holds for a call. -/
def held (w : CallLoop Peer) : NetCall → Option Nat
  | .request id => w.pendingReq.lookup id
  | .query .getProviders id => (w.pendingProviders.lookup id).map Prod.snd
  | .query .putRecord id => w.pendingPut.lookup id
  | .query .getRecord id => w.pendingGet.lookup id
  | .query .other _ => none
  | .refused => none

/-- The final event of a call is still to come. -/
def Live (w : CallLoop Peer) : NetCall → Prop
  | .request id => id ∈ w.swarm.inFlight
  | .query kind id => w.queries.lookup id = some kind
  | .refused => False

/-- The calls and their channels. -/
def desk (w : CallLoop Peer) : Desk NetCall := ⟨w.calls, w.held, w.Live, w.sent.map Prod.fst⟩

/-! ## What the operations do to the desk -/

omit [Blake3] [RaptorQ] [DecidableEq Peer] in
theorem held_eq_update {w w' : CallLoop Peer} {k : NetCall} {v : Option Nat}
    (hself : w'.held k = v) (hothers : ∀ k', k' ≠ k → w'.held k' = w.held k') :
    w'.held = Function.update w.held k v :=
  Function.eq_update_iff.mpr ⟨hself, hothers⟩

omit [Blake3] [RaptorQ] [DecidableEq Peer] in
/-- A reply through a channel that is held. -/
theorem tended_send {w w' : CallLoop Peer} (h : w.desk.Tended) {k : NetCall} {c : Nat}
    {a : Reply Peer} (hc : w.held k = some c) (hheld : w'.held = Function.update w.held k none)
    (hcalls : w'.calls = w.calls) (hlive : w'.Live = w.Live) (hsent : w'.sent = w.sent) :
    (w'.send c a).desk.Tended := by
  have hdesk : (w'.send c a).desk =
      ⟨w.desk.calls, Function.update w.desk.held k none, w.desk.live, w.desk.used ++ [c]⟩ := by
    have hsame : (w'.send c a).desk =
        ⟨w'.calls, w'.held, w'.Live, (w'.sent ++ [(c, a)]).map Prod.fst⟩ := rfl
    rw [hsame, hcalls, hheld, hlive, hsent, List.map_append]
    rfl
  rw [hdesk]
  exact h.answer hc

omit [Blake3] [RaptorQ] [DecidableEq Peer] in
theorem tended_replyReq {w : CallLoop Peer} (h : w.desk.Tended) (id : Nat)
    (r : Except NetError Net.Response) : (w.replyReq id r).desk.Tended := by
  unfold replyReq
  cases hl : w.pendingReq.lookup id with
  | none => exact h
  | some c =>
    refine tended_send (k := .request id) h hl (held_eq_update ?_ ?_) rfl rfl rfl
    · exact Finmap.lookup_erase _ _
    · rintro (id' | ⟨_ | _ | _ | _, id'⟩ | _) hne
      · exact Finmap.lookup_erase_ne fun he => hne (he ▸ rfl)
      all_goals rfl

omit [Blake3] [RaptorQ] [DecidableEq Peer] in
theorem tended_replyProviders {w : CallLoop Peer} (h : w.desk.Tended) (id : Nat) :
    (w.replyProviders id).desk.Tended := by
  unfold replyProviders
  cases hl : w.pendingProviders.lookup id with
  | none => exact h
  | some slot =>
    have hc : w.held (.query .getProviders id) = some slot.2 := congrArg (Option.map Prod.snd) hl
    refine tended_send h hc (held_eq_update ?_ ?_) rfl rfl rfl
    · exact congrArg (Option.map Prod.snd) (Finmap.lookup_erase id w.pendingProviders)
    · rintro (id' | ⟨_ | _ | _ | _, id'⟩ | _) hne
      case query.getProviders =>
        exact congrArg (Option.map Prod.snd) (Finmap.lookup_erase_ne fun he => hne (he ▸ rfl))
      all_goals rfl

omit [Blake3] [RaptorQ] [DecidableEq Peer] in
theorem tended_replyPut {w : CallLoop Peer} (h : w.desk.Tended) (id : Nat) (ok : Bool) :
    (w.replyPut id ok).desk.Tended := by
  unfold replyPut
  cases hl : w.pendingPut.lookup id with
  | none => exact h
  | some c =>
    refine tended_send (k := .query .putRecord id) h hl (held_eq_update ?_ ?_) rfl rfl rfl
    · exact Finmap.lookup_erase _ _
    · rintro (id' | ⟨_ | _ | _ | _, id'⟩ | _) hne
      case query.putRecord => exact Finmap.lookup_erase_ne fun he => hne (he ▸ rfl)
      all_goals rfl

omit [Blake3] [RaptorQ] [DecidableEq Peer] in
theorem tended_replyGet {w : CallLoop Peer} (h : w.desk.Tended) (id : Nat)
    (value : Option Bytes) : (w.replyGet id value).desk.Tended := by
  unfold replyGet
  cases hl : w.pendingGet.lookup id with
  | none => exact h
  | some c =>
    refine tended_send (k := .query .getRecord id) h hl (held_eq_update ?_ ?_) rfl rfl rfl
    · exact Finmap.lookup_erase _ _
    · rintro (id' | ⟨_ | _ | _ | _, id'⟩ | _) hne
      case query.getRecord => exact Finmap.lookup_erase_ne fun he => hne (he ▸ rfl)
      all_goals rfl

omit [Blake3] [RaptorQ] in
/-- Gathering changes nothing about who is waiting. -/
theorem gather_held (w : CallLoop Peer) (id : Nat) (providers : List Peer) :
    (w.gather id providers).desk = w.desk := by
  have hheld : (w.gather id providers).held = w.held := by
    unfold gather
    cases hl : w.pendingProviders.lookup id with
    | none => rfl
    | some slot =>
      funext k
      rcases k with id' | ⟨_ | _ | _ | _, id'⟩ | _
      case query.getProviders =>
        by_cases he : id' = id
        · subst he
          have hins := Finmap.lookup_insert (a := id')
            (b := (gatherProviders slot.1 providers, slot.2)) w.pendingProviders
          exact (congrArg (Option.map Prod.snd) hins).trans (congrArg (Option.map Prod.snd) hl).symm
        · exact congrArg (Option.map Prod.snd) (Finmap.lookup_insert_of_ne _ he)
      all_goals rfl
  unfold desk
  rw [hheld]
  unfold gather
  cases w.pendingProviders.lookup id <;> rfl

omit [Blake3] [RaptorQ] in
/-- What `on_kad` answers was held, so nobody is forgotten. -/
theorem tended_onKad {w : CallLoop Peer} (h : w.desk.Tended) (id : Nat) (last : Bool)
    (result : QueryResult Peer) : (w.onKad id last result).desk.Tended := by
  have hgather (providers : List Peer) : (w.gather id providers).desk.Tended := by
    rwa [gather_held]
  cases result with
  | foundProviders providers =>
    cases last with
    | false => exact hgather providers
    | true => exact tended_replyProviders (hgather providers) id
  | finishedProviders =>
    cases last with
    | false => exact h
    | true => exact tended_replyProviders h id
  | providersFailed => exact tended_replyProviders h id
  | foundRecord value => exact tended_replyGet h id _
  | finishedRecord =>
    cases last with
    | false => exact h
    | true => exact tended_replyGet h id _
  | recordFailed => exact tended_replyGet h id _
  | putRecord ok => exact tended_replyPut h id ok
  | other => exact h

/-! ## After a reply nothing is held -/

omit [Blake3] [RaptorQ] [DecidableEq Peer] in
theorem held_replyReq (w : CallLoop Peer) (id : Nat) (r : Except NetError Net.Response) :
    (w.replyReq id r).held (.request id) = none := by
  unfold replyReq
  cases hl : w.pendingReq.lookup id with
  | none => exact hl
  | some c => exact Finmap.lookup_erase _ _

omit [Blake3] [RaptorQ] [DecidableEq Peer] in
theorem held_replyProviders (w : CallLoop Peer) (id : Nat) :
    (w.replyProviders id).held (.query .getProviders id) = none := by
  unfold replyProviders
  cases hl : w.pendingProviders.lookup id with
  | none => exact congrArg (Option.map Prod.snd) hl
  | some slot => exact congrArg (Option.map Prod.snd) (Finmap.lookup_erase id w.pendingProviders)

omit [Blake3] [RaptorQ] [DecidableEq Peer] in
theorem held_replyPut (w : CallLoop Peer) (id : Nat) (ok : Bool) :
    (w.replyPut id ok).held (.query .putRecord id) = none := by
  unfold replyPut
  cases hl : w.pendingPut.lookup id with
  | none => exact hl
  | some c => exact Finmap.lookup_erase _ _

omit [Blake3] [RaptorQ] [DecidableEq Peer] in
theorem held_replyGet (w : CallLoop Peer) (id : Nat) (value : Option Bytes) :
    (w.replyGet id value).held (.query .getRecord id) = none := by
  unfold replyGet
  cases hl : w.pendingGet.lookup id with
  | none => exact hl
  | some c => exact Finmap.lookup_erase _ _

omit [Blake3] [RaptorQ] in
/-- The last result of a query, or an error, leaves nothing held for it. -/
theorem held_onKad (w : CallLoop Peer) (id : Nat) {last : Bool} {result : QueryResult Peer}
    (hover : last ∨ result.failed) :
    (w.onKad id last result).held (.query result.kind id) = none := by
  cases result with
  | foundProviders providers =>
    obtain rfl : last = true := hover.resolve_right Bool.false_ne_true
    exact held_replyProviders _ id
  | finishedProviders =>
    obtain rfl : last = true := hover.resolve_right Bool.false_ne_true
    exact held_replyProviders _ id
  | providersFailed => exact held_replyProviders _ id
  | foundRecord value => exact held_replyGet _ id _
  | finishedRecord =>
    obtain rfl : last = true := hover.resolve_right Bool.false_ne_true
    exact held_replyGet _ id _
  | recordFailed => exact held_replyGet _ id _
  | putRecord ok => exact held_replyPut _ id ok
  | other => rfl

/-! ## The swarm and the queries move on -/

/-- The request that an event ends. -/
def answers : NodeEvent Peer → Option Nat
  | .response _ id _ => some id
  | .outboundFailure id => some id
  | _ => none

/-- A request in flight stays so until it is answered. -/
theorem swarm_keeps {w w' : Swarm Peer} {ev : NodeEvent Peer} (h : w.step ev = some w') {id : Nat}
    (hid : id ∈ w.inFlight) (hother : answers ev ≠ some id) : id ∈ w'.inFlight := by
  have herase (id' : Nat) (hne : some id' ≠ some id) : id ∈ w.inFlight.erase id' :=
    Finmap.mem_erase.mpr ⟨fun he => hne (congrArg some he.symm), hid⟩
  have hsent (q : Peer) (h : (w.node.step ev).map (w.sent q) = some w') : id ∈ w'.inFlight := by
    obtain ⟨node, -, rfl⟩ := Option.map_eq_some_iff.mp h
    unfold Swarm.sent
    dsimp only
    split
    · exact hid
    · exact Finmap.mem_insert.mpr (.inr hid)
  cases ev with
  | response q id' response =>
    rw [Swarm.step] at h
    split at h
    · obtain ⟨node, -, rfl⟩ := Option.map_eq_some_iff.mp h
      exact herase id' hother
    · cases h
  | outboundFailure id' =>
    rw [Swarm.step] at h
    split at h
    · obtain ⟨node, -, rfl⟩ := Option.map_eq_some_iff.mp h
      exact herase id' hother
    · cases h
  | identified q key => exact hsent q h
  | sendRequest q request => exact hsent q h
  | submitReceipt q bytes => exact hsent q h
  | _ =>
    unfold Swarm.step at h
    obtain ⟨node, -, rfl⟩ := Option.map_eq_some_iff.mp h
    exact hid

/-- A request that is sent is in flight. -/
theorem swarm_sends {w w' : Swarm Peer} {peer : Peer} {request : Net.Request}
    (h : w.step (.sendRequest peer request) = some w') :
    w'.inFlight = w.inFlight.insert w.node.nextRequest peer := by
  unfold Swarm.step at h
  obtain ⟨node, hnode, rfl⟩ := Option.map_eq_some_iff.mp h
  cases hnode
  exact if_neg (Nat.succ_ne_self _)

omit [Blake3] [RaptorQ] [DecidableEq Peer] in
/-- A change of the swarm that keeps the requests that are waited for. -/
theorem tended_reswarm {w : CallLoop Peer} (h : w.desk.Tended) {swarm : Swarm Peer}
    (hkeep : ∀ id c, w.pendingReq.lookup id = some c → id ∈ w.swarm.inFlight →
      id ∈ swarm.inFlight) :
    desk { w with swarm := swarm } |>.Tended := by
  refine h.relive fun k c hk => ?_
  have hlive := (h.holds k c hk).2.1
  cases k with
  | request id => exact hkeep id c hk hlive
  | query kind id => exact hlive
  | refused => exact hlive

omit [Blake3] [RaptorQ] [DecidableEq Peer] in
/-- The end of a query that nobody waits for any more. -/
theorem tended_endQuery {w : CallLoop Peer} (h : w.desk.Tended) {id : Nat} {kind : QueryKind}
    (hkind : w.queries.lookup id = some kind) (hfree : w.held (.query kind id) = none) :
    (w.endQuery id).desk.Tended := by
  refine h.relive fun k c hk => ?_
  have hlive := (h.holds k c hk).2.1
  cases k with
  | request id' => exact hlive
  | query kind' id' =>
    by_cases he : id' = id
    · subst he
      obtain rfl : kind' = kind := Option.some.inj (hlive.symm.trans hkind)
      exact absurd (hfree.symm.trans hk) (Option.some_ne_none c).symm
    · exact (Finmap.lookup_erase_ne he).trans hlive
  | refused => exact hlive

omit [Blake3] [RaptorQ] [DecidableEq Peer] in
/-- A query that starts changes nothing for those who wait for others. -/
theorem live_startQuery {w : CallLoop Peer} (hfresh : ∀ q ∈ w.queries, q < w.nextQuery)
    (kind : QueryKind) {k : NetCall} (hlive : w.Live k) : (w.startQuery kind).Live k := by
  cases k with
  | request id => exact hlive
  | query kind' id =>
    have hlt := hfresh id (Finmap.mem_iff.mpr ⟨kind', hlive⟩)
    exact (Finmap.lookup_insert_of_ne _ (Nat.ne_of_lt hlt)).trans hlive
  | refused => exact hlive

omit [Blake3] [RaptorQ] [DecidableEq Peer] in
/-- A call that starts a query. -/
theorem tended_takeQuery {w w' : CallLoop Peer} (h : w.desk.Tended)
    (hfresh : ∀ q ∈ w.queries, q < w.nextQuery) {kind : QueryKind}
    (hheld : w'.held = Function.update w.held (.query kind w.nextQuery) (some w.channel))
    (hcalls : w'.calls = w.calls) (hlive : w'.Live = (w.startQuery kind).Live)
    (hsent : w'.sent = w.sent) : (w'.takeCall (.query kind w.nextQuery)).desk.Tended := by
  have hnew : ¬ w.desk.live (.query kind w.nextQuery) := fun hl =>
    Nat.lt_irrefl _ (hfresh _ (Finmap.mem_iff.mpr ⟨kind, hl⟩))
  have hdesk : (w'.takeCall (.query kind w.nextQuery)).desk =
      ⟨w.calls ++ [.query kind w.nextQuery],
        Function.update w.held (.query kind w.nextQuery) (some w.channel),
        (w.startQuery kind).Live, w.sent.map Prod.fst⟩ := by
    rw [← hcalls, ← hheld, ← hlive, ← hsent]
    rfl
  rw [hdesk]
  have htaken := h.take hnew
  refine htaken.relive fun k c hk => ?_
  rcases (htaken.holds k c hk).2.1 with rfl | hold
  · exact Finmap.lookup_insert _
  · exact live_startQuery hfresh kind hold

/-! ## What the providers' calls gather -/

omit [Blake3] [RaptorQ] [Ed25519] in
/-- No peer is gathered twice. -/
theorem nodup_gatherProviders (providers : List Peer) {acc : List Peer} (h : acc.Nodup) :
    (gatherProviders acc providers).Nodup := by
  induction providers generalizing acc with
  | nil => exact h
  | cons p providers ih =>
    rw [gatherProviders, List.foldl_cons]
    refine ih ?_
    by_cases hp : p ∈ acc
    · rwa [if_pos hp]
    · rw [if_neg hp]
      exact List.nodup_append_comm.mp (List.nodup_cons.mpr ⟨hp, h⟩)

omit [Blake3] [RaptorQ] [Ed25519] in
/-- Everybody is gathered. -/
theorem mem_gatherProviders (providers : List Peer) {acc : List Peer} {x : Peer} :
    x ∈ gatherProviders acc providers ↔ x ∈ acc ∨ x ∈ providers := by
  induction providers generalizing acc with
  | nil => simp [gatherProviders]
  | cons p providers ih =>
    have hcons : gatherProviders acc (p :: providers) =
        gatherProviders (if p ∈ acc then acc else acc ++ [p]) providers := rfl
    rw [hcons, ih, List.mem_cons]
    by_cases hp : p ∈ acc
    · rw [if_pos hp]
      refine ⟨fun h => h.imp_right .inr, ?_⟩
      rintro (h | rfl | h)
      · exact .inl h
      · exact .inl hp
      · exact .inr h
    · rw [if_neg hp, List.mem_append, List.mem_singleton, or_assoc]

/-- The peers are those that the query has reported, each once. -/
def Union (w : CallLoop Peer) (query : Nat) (peers : List Peer) : Prop :=
  peers.Nodup ∧ ∀ p, p ∈ peers ↔ (query, p) ∈ w.reported

/-- What is gathered for a caller, and what a caller was told, is what its query has reported; the
query of a caller that was told is over. -/
structure Collected (w : CallLoop Peer) : Prop where
  fresh : ∀ q ∈ w.queries, q < w.nextQuery
  past : ∀ x ∈ w.reported, x.1 < w.nextQuery
  called : ∀ (c q : Nat), w.calls[c]? = some (.query .getProviders q) → q < w.nextQuery
  gathers : ∀ q acc c, w.pendingProviders.lookup q = some (acc, c) → w.Union q acc
  told : ∀ (c q : Nat) a, w.calls[c]? = some (.query .getProviders q) → (c, a) ∈ w.sent →
    q ∉ w.queries ∧ ∃ peers, a = .providers peers ∧ w.Union q peers

omit [Blake3] [RaptorQ] [DecidableEq Peer] in
/-- Nothing about the providers changes when another caller is answered. -/
theorem Collected.send {w : CallLoop Peer} (h : w.Collected) {c : Nat} {a : Reply Peer}
    (hc : ∀ q : Nat, w.calls[c]? ≠ some (.query .getProviders q)) : (w.send c a).Collected := by
  refine ⟨h.fresh, h.past, h.called, h.gathers, fun c' q a' hcall hsent => ?_⟩
  rcases List.mem_append.mp hsent with hold | hnew
  · exact h.told c' q a' hcall hold
  · obtain ⟨rfl, -⟩ := Prod.mk.inj (List.mem_singleton.mp hnew)
    exact absurd hcall (hc q)

omit [Blake3] [RaptorQ] [DecidableEq Peer] in
/-- The end of a query. -/
theorem Collected.endQuery {w : CallLoop Peer} (h : w.Collected) (id : Nat) :
    (w.endQuery id).Collected := by
  refine ⟨fun q hq => h.fresh q (Finmap.mem_erase.mp hq).2, h.past, h.called, h.gathers, ?_⟩
  intro c q a hcall hsent
  obtain ⟨hover, htold⟩ := h.told c q a hcall hsent
  exact ⟨fun hq => hover (Finmap.mem_erase.mp hq).2, htold⟩

omit [Blake3] [RaptorQ] [DecidableEq Peer] in
theorem Collected.replyReq {w : CallLoop Peer} (h : w.Collected) (hd : w.desk.Tended) (id : Nat)
    (r : Except NetError Net.Response) : (w.replyReq id r).Collected := by
  unfold CallLoop.replyReq
  cases hl : w.pendingReq.lookup id with
  | none => exact h
  | some c =>
    have hcall := (hd.holds (.request id) c hl).1
    have hrest : Collected { w with pendingReq := w.pendingReq.erase id } :=
      ⟨h.fresh, h.past, h.called, h.gathers, h.told⟩
    refine hrest.send fun q hq => ?_
    cases hcall.symm.trans hq

omit [Blake3] [RaptorQ] [DecidableEq Peer] in
theorem Collected.replyPut {w : CallLoop Peer} (h : w.Collected) (hd : w.desk.Tended) (id : Nat)
    (ok : Bool) : (w.replyPut id ok).Collected := by
  unfold CallLoop.replyPut
  cases hl : w.pendingPut.lookup id with
  | none => exact h
  | some c =>
    have hcall := (hd.holds (.query .putRecord id) c hl).1
    have hrest : Collected { w with pendingPut := w.pendingPut.erase id } :=
      ⟨h.fresh, h.past, h.called, h.gathers, h.told⟩
    refine hrest.send fun q hq => ?_
    cases hcall.symm.trans hq

omit [Blake3] [RaptorQ] [DecidableEq Peer] in
theorem Collected.replyGet {w : CallLoop Peer} (h : w.Collected) (hd : w.desk.Tended) (id : Nat)
    (value : Option Bytes) : (w.replyGet id value).Collected := by
  unfold CallLoop.replyGet
  cases hl : w.pendingGet.lookup id with
  | none => exact h
  | some c =>
    have hcall := (hd.holds (.query .getRecord id) c hl).1
    have hrest : Collected { w with pendingGet := w.pendingGet.erase id } :=
      ⟨h.fresh, h.past, h.called, h.gathers, h.told⟩
    refine hrest.send fun q hq => ?_
    cases hcall.symm.trans hq

omit [Blake3] [RaptorQ] [DecidableEq Peer] in
/-- The caller of a query for providers is told when the query is over. -/
theorem Collected.replyProviders {w : CallLoop Peer} (h : w.Collected) (hd : w.desk.Tended)
    (id : Nat) : ((w.replyProviders id).endQuery id).Collected := by
  unfold CallLoop.replyProviders
  cases hl : w.pendingProviders.lookup id with
  | none => exact h.endQuery id
  | some slot =>
    obtain ⟨acc, c⟩ := slot
    have hheld : w.held (.query .getProviders id) = some c := congrArg (Option.map Prod.snd) hl
    have hcall := (hd.holds (.query .getProviders id) c hheld).1
    refine ⟨(h.endQuery id).fresh, h.past, h.called, fun q acc' c' hq => ?_, ?_⟩
    · by_cases he : q = id
      · subst he
        exact absurd ((Finmap.lookup_erase q w.pendingProviders).symm.trans hq) nofun
      · exact h.gathers q acc' c' ((Finmap.lookup_erase_ne he).symm.trans hq)
    · intro c' q a hcall' hsent
      rcases List.mem_append.mp hsent with hold | hnew
      · exact (h.endQuery id).told c' q a hcall' hold
      · obtain ⟨rfl, rfl⟩ := Prod.mk.inj (List.mem_singleton.mp hnew)
        cases hcall.symm.trans hcall'
        exact ⟨fun hq => (Finmap.mem_erase.mp hq).1 rfl, acc, rfl, h.gathers id acc c' hl⟩

omit [Blake3] [RaptorQ] in
/-- What a query reports is gathered for its caller. -/
theorem Collected.gather {w : CallLoop Peer} (h : w.Collected) {id : Nat} (hlive : id ∈ w.queries)
    (providers : List Peer) :
    ((w.report id (.foundProviders providers)).gather id providers).Collected := by
  have hadds (q : Nat) {peers : List Peer} (hne : q ≠ id) (hu : w.Union q peers) :
      (w.report id (.foundProviders providers)).Union q peers := by
    refine ⟨hu.1, fun p => (hu.2 p).trans ⟨List.mem_append_left _, fun hp => ?_⟩⟩
    rcases List.mem_append.mp hp with hold | hnew
    · exact hold
    · obtain ⟨p', -, he⟩ := List.mem_map.mp hnew
      exact absurd (congrArg Prod.fst he).symm hne
  have hpast : ∀ x ∈ (w.report id (.foundProviders providers)).reported, x.1 < w.nextQuery := by
    intro x hx
    rcases List.mem_append.mp hx with hold | hnew
    · exact h.past x hold
    · obtain ⟨p, -, rfl⟩ := List.mem_map.mp hnew
      exact h.fresh id hlive
  -- a caller that was told waits for another query, as this one is not over
  have htold : ∀ (c q : Nat) a, w.calls[c]? = some (.query .getProviders q) → (c, a) ∈ w.sent →
      q ∉ w.queries ∧ ∃ peers, a = .providers peers ∧
        (w.report id (.foundProviders providers)).Union q peers := by
    intro c q a hcall hsent
    obtain ⟨hover, peers, rfl, hu⟩ := h.told c q a hcall hsent
    exact ⟨hover, peers, rfl, hadds q (fun he => hover (he ▸ hlive)) hu⟩
  unfold CallLoop.gather
  have hpending : (w.report id (.foundProviders providers)).pendingProviders.lookup id =
    w.pendingProviders.lookup id := rfl
  rw [hpending]
  cases hl : w.pendingProviders.lookup id with
  | none =>
    refine ⟨h.fresh, hpast, h.called, fun q acc c hq => ?_, htold⟩
    have hne : q ≠ id := by
      rintro rfl
      cases hl.symm.trans hq
    exact hadds q hne (h.gathers q acc c hq)
  | some slot =>
    obtain ⟨acc, c⟩ := slot
    refine ⟨h.fresh, hpast, h.called, fun q acc' c' hq => ?_, htold⟩
    by_cases he : q = id
    · subst he
      have hins : some (gatherProviders acc providers, c) = some (acc', c') :=
        (Finmap.lookup_insert w.pendingProviders).symm.trans hq
      obtain ⟨rfl, rfl⟩ := Prod.mk.inj (Option.some.inj hins)
      obtain ⟨hnodup, hmem⟩ := h.gathers q acc c hl
      refine ⟨nodup_gatherProviders providers hnodup, fun p => ?_⟩
      have hnew : (q, p) ∈ providers.map (fun p => (q, p)) ↔ p ∈ providers := by simp
      rw [mem_gatherProviders, hmem, ← hnew]
      exact List.mem_append.symm
    · exact hadds q he (h.gathers q acc' c' ((Finmap.lookup_insert_of_ne _ he).symm.trans hq))

omit [Blake3] [RaptorQ] [DecidableEq Peer] in
/-- A query starts. -/
theorem Collected.startQuery {w : CallLoop Peer} (h : w.Collected) (kind : QueryKind) :
    (w.startQuery kind).Collected := by
  refine ⟨fun q hq => ?_, fun x hx => Nat.lt_succ_of_lt (h.past x hx),
    fun c q hcall => Nat.lt_succ_of_lt (h.called c q hcall), h.gathers, ?_⟩
  · rcases Finmap.mem_insert.mp hq with rfl | hold
    · exact Nat.lt_succ_self _
    · exact Nat.lt_succ_of_lt (h.fresh q hold)
  · intro c q a hcall hsent
    obtain ⟨hover, htold⟩ := h.told c q a hcall hsent
    refine ⟨fun hq => ?_, htold⟩
    rcases Finmap.mem_insert.mp hq with rfl | hold
    · exact Nat.lt_irrefl _ (h.called c _ hcall)
    · exact hover hold

omit [Blake3] [RaptorQ] [DecidableEq Peer] in
/-- A call for something else than providers. -/
theorem Collected.takeCall {w : CallLoop Peer} (h : w.Collected) {call : NetCall}
    (hother : ∀ q, call ≠ .query .getProviders q) : (w.takeCall call).Collected := by
  have hold (c q : Nat) (hcall : (w.calls ++ [call])[c]? = some (.query .getProviders q)) :
      w.calls[c]? = some (.query .getProviders q) :=
    (Desk.getElem?_concat hcall).resolve_right fun hnew => hother q hnew.2.symm
  exact ⟨h.fresh, h.past, fun c q hcall => h.called c q (hold c q hcall), h.gathers,
    fun c q a hcall => h.told c q a (hold c q hcall)⟩

omit [Blake3] [RaptorQ] [DecidableEq Peer] in
/-- A call for providers has nothing gathered yet, and its query has reported nothing. -/
theorem Collected.findProviders {w : CallLoop Peer} (h : w.Collected) (hd : w.desk.Tended) :
    Collected ({ w.startQuery .getProviders with
      pendingProviders := w.pendingProviders.insert w.nextQuery ([], w.channel) }.takeCall
        (.query .getProviders w.nextQuery)) := by
  have hstart := h.startQuery .getProviders
  refine ⟨hstart.fresh, hstart.past, fun c q hcall => ?_, fun q acc c hq => ?_, ?_⟩
  · rcases Desk.getElem?_concat hcall with hold | ⟨-, hnew⟩
    · exact hstart.called c q hold
    · cases hnew
      exact Nat.lt_succ_self _
  · by_cases he : q = w.nextQuery
    · subst he
      have hins : some ([], w.channel) = some (acc, c) :=
        (Finmap.lookup_insert w.pendingProviders).symm.trans hq
      obtain ⟨rfl, rfl⟩ := Prod.mk.inj (Option.some.inj hins)
      refine ⟨List.nodup_nil, fun p => ⟨fun hp => absurd hp List.not_mem_nil, fun hp => ?_⟩⟩
      exact absurd (h.past _ hp) (Nat.lt_irrefl _)
    · exact h.gathers q acc c ((Finmap.lookup_insert_of_ne _ he).symm.trans hq)
  · intro c q a hcall hsent
    rcases Desk.getElem?_concat hcall with hold | ⟨rfl, -⟩
    · exact hstart.told c q a hold hsent
    · have hlt := hd.taken w.calls.length (List.mem_map.mpr ⟨(_, a), hsent, rfl⟩)
      exact absurd hlt (Nat.lt_irrefl _)

/-! ## Every event -/

/-- What holds of a node and its callers between events. -/
structure Attended (w : CallLoop Peer) : Prop where
  desk : w.desk.Tended
  numbered : w.swarm.Numbered
  apart : ∀ id ∈ w.swarm.node.pendingInternal, w.pendingReq.lookup id = none
  collected : w.Collected

omit [Blake3] [RaptorQ] [DecidableEq Peer] in
/-- A new node has no callers. -/
theorem attended_new {node : EventLoop Peer} (h : node.pendingInternal = ∅) :
    (new node).Attended where
  desk := by
    refine ⟨List.nodup_nil, fun c hc => (nomatch hc), fun k c hk => ?_, fun c k hc => (nomatch hc)⟩
    rcases k with id' | ⟨_ | _ | _ | _, id'⟩ | _ <;> cases hk
  numbered := ⟨fun id hid => absurd (h ▸ hid) Finmap.notMem_empty, fun id p hid => (nomatch hid)⟩
  apart id _ := rfl
  collected := by
    refine ⟨fun q hq => absurd hq Finmap.notMem_empty, fun x hx => (nomatch hx), ?_, ?_, ?_⟩
    · intro c q hc
      cases hc
    · intro q acc c hq
      cases hq
    · intro c q a hc
      cases hc

omit [Blake3] [RaptorQ] [DecidableEq Peer] in
/-- What waits for a request is answered with the request, even when the node made other requests
for itself. -/
theorem held_react {w : CallLoop Peer} (h : w.Attended) {ev : NodeEvent Peer} {id : Nat}
    (hid : answers ev = some id) : (w.react ev).pendingReq.lookup id = none := by
  cases ev with
  | response q id' response =>
    cases hid
    unfold react onResponse
    dsimp only
    cases hl : w.swarm.node.pendingInternal.lookup id with
    | none => exact held_replyReq w id _
    | some r => exact h.apart id (Finmap.mem_iff.mpr ⟨r, hl⟩)
  | outboundFailure id' =>
    cases hid
    exact held_replyReq w id _
  | _ => cases hid

omit [Blake3] [RaptorQ] [DecidableEq Peer] in
theorem replyReq_swarm (w : CallLoop Peer) (id : Nat) (r : Except NetError Net.Response) :
    (w.replyReq id r).swarm = w.swarm := by
  unfold replyReq
  cases w.pendingReq.lookup id <;> rfl

omit [Blake3] [RaptorQ] [DecidableEq Peer] in
/-- What waits after a reply has waited before. -/
theorem replyReq_pendingReq {w : CallLoop Peer} {id id' c : Nat} {r : Except NetError Net.Response}
    (h : (w.replyReq id r).pendingReq.lookup id' = some c) : w.pendingReq.lookup id' = some c := by
  unfold replyReq at h
  cases hl : w.pendingReq.lookup id with
  | none => rwa [hl] at h
  | some c' =>
    rw [hl] at h
    by_cases he : id' = id
    · subst he
      cases (Finmap.lookup_erase id' w.pendingReq).symm.trans h
    · exact (Finmap.lookup_erase_ne he).symm.trans h

omit [Blake3] [RaptorQ] [DecidableEq Peer] in
/-- Answering a response or a failure. -/
theorem Attended.replyReq {w : CallLoop Peer} (h : w.Attended) (id : Nat)
    (r : Except NetError Net.Response) : (w.replyReq id r).Attended where
  desk := tended_replyReq h.desk id r
  numbered := (replyReq_swarm w id r).symm ▸ h.numbered
  apart id' hid := by
    rw [replyReq_swarm] at hid
    refine Option.eq_none_iff_forall_ne_some.mpr fun c hc => ?_
    cases (h.apart id' hid).symm.trans (replyReq_pendingReq hc)
  collected := h.collected.replyReq h.desk id r

omit [Blake3] [RaptorQ] [DecidableEq Peer] in
/-- The node moves on, and the callers whose requests have ended are not held any more. -/
theorem Attended.reswarm {w : CallLoop Peer} (h : w.Attended) {swarm : Swarm Peer}
    (hnumbered : swarm.Numbered)
    (hkeep : ∀ id c, w.pendingReq.lookup id = some c → id ∈ w.swarm.inFlight →
      id ∈ swarm.inFlight)
    (hpending : ∀ id ∈ swarm.node.pendingInternal,
      id ∈ w.swarm.node.pendingInternal ∨ id = w.swarm.node.nextRequest) :
    Attended { w with swarm := swarm } where
  desk := tended_reswarm h.desk hkeep
  numbered := hnumbered
  apart id hid := by
    rcases hpending id hid with hold | rfl
    · exact h.apart id hold
    · refine Option.eq_none_iff_forall_ne_some.mpr fun c hc => ?_
      -- whoever waits for a request has its number, and this number is not used yet
      obtain ⟨p, hp⟩ := Finmap.mem_iff.mp (h.desk.holds (.request _) c hc).2.1
      exact Nat.lt_irrefl _ (h.numbered.inFlight _ p hp)
  collected := ⟨h.collected.fresh, h.collected.past, h.collected.called, h.collected.gathers,
    h.collected.told⟩

/-- The callers stay attended when `Request` is called: its number is new to both maps. -/
theorem Attended.sendRequest {w : CallLoop Peer} (h : w.Attended) {swarm : Swarm Peer}
    {peer : Peer} {request : Net.Request}
    (hs : w.swarm.step (.sendRequest peer request) = some swarm) :
    Attended { w.react (.sendRequest peer request) with swarm := swarm } := by
  have hnew : ¬ w.desk.live (.request w.swarm.node.nextRequest) := by
    intro hlive
    obtain ⟨p, hp⟩ := Finmap.mem_iff.mp hlive
    exact Nat.lt_irrefl _ (h.numbered.inFlight _ p hp)
  have hflight := swarm_sends hs
  refine ⟨?_, Swarm.step_numbered h.numbered hs, fun id hid => ?_, ?_⟩
  · have hheld : CallLoop.held { w.react (.sendRequest peer request) with swarm := swarm } =
        Function.update w.held (.request w.swarm.node.nextRequest) (some w.channel) := by
      refine held_eq_update (Finmap.lookup_insert _) ?_
      rintro (id' | ⟨_ | _ | _ | _, id'⟩ | _) hne
      · exact Finmap.lookup_insert_of_ne _ fun he => hne (he ▸ rfl)
      all_goals rfl
    have htaken := h.desk.take hnew
    have hdesk : CallLoop.desk { w.react (.sendRequest peer request) with swarm := swarm } =
        ⟨w.calls ++ [.request w.swarm.node.nextRequest],
          Function.update w.held (.request w.swarm.node.nextRequest) (some w.channel),
          Live { w with swarm := swarm }, w.sent.map Prod.fst⟩ := by
      rw [← hheld]
      rfl
    rw [hdesk]
    refine htaken.relive fun k c hk => ?_
    have hgrow (id : Nat) (hid : id ∈ w.swarm.inFlight ∨ id = w.swarm.node.nextRequest) :
        id ∈ swarm.inFlight := hflight ▸ Finmap.mem_insert.mpr hid.symm
    rcases (htaken.holds k c hk).2.1 with rfl | hold
    · exact hgrow _ (.inr rfl)
    · cases k with
      | request id => exact hgrow id (.inl hold)
      | query kind id => exact hold
      | refused => exact hold
  · have hnode := Option.some.inj (Swarm.step_node hs)
    have hid' : id ∈ w.swarm.node.pendingInternal := by rwa [← hnode] at hid
    have hne : id ≠ w.swarm.node.nextRequest := Nat.ne_of_lt (h.numbered.node id hid')
    exact (Finmap.lookup_insert_of_ne _ hne).trans (h.apart id hid')
  · have hcollected : (w.takeCall (.request w.swarm.node.nextRequest)).Collected :=
      h.collected.takeCall nofun
    exact ⟨hcollected.fresh, hcollected.past, hcollected.called, hcollected.gathers,
      hcollected.told⟩

/-- The callers stay attended over an event of the node. -/
theorem Attended.node {w : CallLoop Peer} (h : w.Attended) {ev : NodeEvent Peer}
    {swarm : Swarm Peer} (hs : w.swarm.step ev = some swarm) :
    Attended { w.react ev with swarm := swarm } := by
  have hnumbered := Swarm.step_numbered h.numbered hs
  have hpending : ∀ id ∈ swarm.node.pendingInternal,
      id ∈ w.swarm.node.pendingInternal ∨ id = w.swarm.node.nextRequest := by
    intro id hid
    obtain ⟨r, hr⟩ := Finmap.mem_iff.mp hid
    rcases EventLoop.step_pending (Swarm.step_node hs) hr with hold | ⟨rfl, -⟩
    · exact .inl (Finmap.mem_iff.mpr ⟨r, hold⟩)
    · exact .inr rfl
  have hmove {w' : CallLoop Peer} (h' : w'.Attended) (hswarm : w'.swarm = w.swarm)
      (hfree : ∀ id, answers ev = some id → w'.pendingReq.lookup id = none) :
      Attended { w' with swarm := swarm } := by
    refine h'.reswarm hnumbered (fun id c hc hid => ?_) (hswarm ▸ hpending)
    refine swarm_keeps hs (hswarm ▸ hid) fun he => ?_
    cases (hfree id he).symm.trans hc
  cases ev with
  | sendRequest peer request => exact h.sendRequest hs
  | response q id response =>
    have hreact : (w.react (.response q id response)).Attended ∧
        (w.react (.response q id response)).swarm = w.swarm := by
      unfold react onResponse
      dsimp only
      cases w.swarm.node.pendingInternal.lookup id with
      | none => exact ⟨h.replyReq id _, replyReq_swarm w id _⟩
      | some r => exact ⟨h, rfl⟩
    exact hmove hreact.1 hreact.2 fun id' hid => held_react h hid
  | outboundFailure id =>
    exact hmove (h.replyReq id _) (replyReq_swarm w id _) fun id' hid => held_react h hid
  | _ => exact hmove h rfl fun id hid => (nomatch hid)

/-- The queries have moved on, and nothing else has. -/
structure Beside (w w' : CallLoop Peer) : Prop where
  swarm : w'.swarm = w.swarm
  pendingReq : w'.pendingReq = w.pendingReq
  queries : w'.queries = w.queries

omit [Blake3] [RaptorQ] in
/-- `on_kad` does not touch the requests. -/
theorem onKad_beside (w : CallLoop Peer) (id : Nat) (last : Bool) (result : QueryResult Peer) :
    Beside w (w.onKad id last result) := by
  have hrefl : Beside w w := ⟨rfl, rfl, rfl⟩
  have hproviders (w' : CallLoop Peer) (h : Beside w w') : Beside w (w'.replyProviders id) := by
    unfold replyProviders
    cases w'.pendingProviders.lookup id <;> exact ⟨h.swarm, h.pendingReq, h.queries⟩
  have hget (value : Option Bytes) : Beside w (w.replyGet id value) := by
    unfold replyGet
    cases w.pendingGet.lookup id <;> exact ⟨rfl, rfl, rfl⟩
  cases result with
  | foundProviders providers =>
    have hgather : Beside w (w.gather id providers) := by
      unfold gather
      cases w.pendingProviders.lookup id <;> exact ⟨rfl, rfl, rfl⟩
    cases last with
    | false => exact hgather
    | true => exact hproviders _ hgather
  | finishedProviders =>
    cases last with
    | false => exact hrefl
    | true => exact hproviders w hrefl
  | providersFailed => exact hproviders w hrefl
  | foundRecord value => exact hget _
  | finishedRecord =>
    cases last with
    | false => exact hrefl
    | true => exact hget _
  | recordFailed => exact hget _
  | putRecord ok =>
    unfold onKad replyPut
    dsimp only
    cases w.pendingPut.lookup id <;> exact ⟨rfl, rfl, rfl⟩
  | other => exact hrefl

omit [Blake3] [RaptorQ] in
/-- A result of a query: what it reports is gathered, and the caller is told at its end. -/
theorem Collected.progressed {w : CallLoop Peer} (h : w.Collected) (hd : w.desk.Tended) {id : Nat}
    {last : Bool} {result : QueryResult Peer} (hlive : w.queries.lookup id = some result.kind) :
    (w.progress id result last).Collected := by
  have hend {w' : CallLoop Peer} (h' : w'.Collected) (b : Prop) [Decidable b] :
      Collected (if b then w'.endQuery id else w') := by
    split
    · exact h'.endQuery id
    · exact h'
  unfold progress
  cases result with
  | foundProviders providers =>
    have hgather := h.gather (Finmap.mem_iff.mpr ⟨_, hlive⟩) providers
    have hdesk : ((w.report id (.foundProviders providers)).gather id providers).desk.Tended := by
      rw [gather_held]
      exact hd
    cases last with
    | false => exact hgather
    | true => exact hgather.replyProviders hdesk id
  | finishedProviders =>
    cases last with
    | false => exact h
    | true => exact h.replyProviders hd id
  | providersFailed =>
    have hover : last ∨ (QueryResult.providersFailed : QueryResult Peer).failed := .inr rfl
    dsimp only
    rw [if_pos hover]
    exact h.replyProviders hd id
  | foundRecord value => exact hend (h.replyGet hd id _) _
  | finishedRecord =>
    cases last with
    | false => exact h
    | true => exact hend (h.replyGet hd id _) _
  | recordFailed => exact hend (h.replyGet hd id _) _
  | putRecord ok => exact hend (h.replyPut hd id ok) _
  | other => exact hend h _

omit [Blake3] [RaptorQ] in
/-- The callers stay attended when a query has a result. -/
theorem Attended.progressed {w : CallLoop Peer} (h : w.Attended) {id : Nat} {last : Bool}
    {result : QueryResult Peer} (hlive : w.queries.lookup id = some result.kind) :
    (w.progress id result last).Attended := by
  have hreport : (w.report id result).desk = w.desk ∧ Beside w (w.report id result) := by
    cases result <;> exact ⟨rfl, rfl, rfl, rfl⟩
  have hbeside := onKad_beside (w.report id result) id last result
  have hswarm := hbeside.swarm.trans hreport.2.swarm
  have hreq := hbeside.pendingReq.trans hreport.2.pendingReq
  have hdesk := tended_onKad (hreport.1.symm ▸ h.desk) id last result
  have hcollected : (w.progress id result last).Collected := h.collected.progressed h.desk hlive
  have happart : ∀ id' ∈ ((w.report id result).onKad id last result).swarm.node.pendingInternal,
      ((w.report id result).onKad id last result).pendingReq.lookup id' = none := by
    intro id' hid
    rw [hreq]
    exact h.apart id' (hswarm ▸ hid)
  unfold progress at hcollected ⊢
  dsimp only at hcollected ⊢
  split
  · next hover =>
    rw [if_pos hover] at hcollected
    have hkind := (hbeside.queries.trans hreport.2.queries) ▸ hlive
    exact ⟨tended_endQuery hdesk hkind (held_onKad _ id hover), hswarm.symm ▸ h.numbered, happart,
      hcollected⟩
  · next hover =>
    rw [if_neg hover] at hcollected
    exact ⟨hdesk, hswarm.symm ▸ h.numbered, happart, hcollected⟩

omit [Blake3] [RaptorQ] [DecidableEq Peer] in
/-- A query that nobody waits for. -/
theorem Attended.background {w : CallLoop Peer} (h : w.Attended) (kind : QueryKind) :
    (w.startQuery kind).Attended where
  desk := h.desk.relive fun k c hk =>
    live_startQuery h.collected.fresh kind (h.desk.holds k c hk).2.1
  numbered := h.numbered
  apart := h.apart
  collected := h.collected.startQuery kind

/-- Every event keeps the callers attended. -/
theorem Attended.step {w w' : CallLoop Peer} (h : w.Attended) {ev : CallEvent Peer}
    (hs : w.step ev = some w') : w'.Attended := by
  have hfresh := h.collected.fresh
  cases ev with
  | node ev =>
    obtain ⟨swarm, hswarm, rfl⟩ := Option.map_eq_some_iff.mp hs
    exact h.node hswarm
  | findProviders =>
    cases hs
    refine ⟨tended_takeQuery h.desk hfresh (held_eq_update ?_ ?_) rfl rfl rfl, h.numbered, h.apart,
      h.collected.findProviders h.desk⟩
    · exact congrArg (Option.map Prod.snd) (Finmap.lookup_insert w.pendingProviders)
    · rintro (id' | ⟨_ | _ | _ | _, id'⟩ | _) hne
      case query.getProviders =>
        exact congrArg (Option.map Prod.snd) (Finmap.lookup_insert_of_ne _ fun he => hne (he ▸ rfl))
      all_goals rfl
  | putRecord accepted =>
    cases accepted with
    | true =>
      cases hs
      refine ⟨tended_takeQuery h.desk hfresh (held_eq_update ?_ ?_) rfl rfl rfl, h.numbered,
        h.apart, ?_⟩
      · exact Finmap.lookup_insert _
      · rintro (id' | ⟨_ | _ | _ | _, id'⟩ | _) hne
        case query.putRecord => exact Finmap.lookup_insert_of_ne _ fun he => hne (he ▸ rfl)
        all_goals rfl
      · have hstart := h.collected.startQuery .putRecord
        have htake :
            ((w.startQuery .putRecord).takeCall (.query .putRecord w.nextQuery)).Collected :=
          hstart.takeCall nofun
        exact ⟨htake.fresh, htake.past, htake.called, htake.gathers, htake.told⟩
    | false =>
      cases hs
      have htake : (w.takeCall .refused).Collected := h.collected.takeCall nofun
      refine ⟨?_, h.numbered, h.apart, htake.send fun q hq => ?_⟩
      · have hdesk : ((w.takeCall .refused).send w.channel (.stored false)).desk =
            { w.desk with
              calls := w.desk.calls ++ [.refused]
              used := w.desk.used ++ [w.desk.calls.length] } := by
          have hused : (w.sent ++ [(w.channel, Reply.stored false)]).map Prod.fst =
              w.sent.map Prod.fst ++ [w.channel] := List.map_append
          exact congrArg (Desk.mk (w.calls ++ [.refused]) w.held w.Live) hused
        rw [hdesk]
        exact h.desk.refuse .refused
      · have hlast : (w.calls ++ [NetCall.refused])[w.calls.length]? = some .refused :=
          List.getElem?_concat_length
        cases hlast.symm.trans hq
  | getRecord =>
    cases hs
    refine ⟨tended_takeQuery h.desk hfresh (held_eq_update ?_ ?_) rfl rfl rfl, h.numbered,
      h.apart, ?_⟩
    · exact Finmap.lookup_insert _
    · rintro (id' | ⟨_ | _ | _ | _, id'⟩ | _) hne
      case query.getRecord => exact Finmap.lookup_insert_of_ne _ fun he => hne (he ▸ rfl)
      all_goals rfl
    · have hstart := h.collected.startQuery .getRecord
      have htake : ((w.startQuery .getRecord).takeCall (.query .getRecord w.nextQuery)).Collected :=
        hstart.takeCall nofun
      exact ⟨htake.fresh, htake.past, htake.called, htake.gathers, htake.told⟩
  | background =>
    cases hs
    exact h.background .other
  | progressed query result last =>
    rw [CallLoop.step] at hs
    split at hs
    · next hlive =>
      cases hs
      exact h.progressed hlive
    · cases hs

/-- No call is left unanswered or answered twice. In every run of a new node no reply channel is
used twice, the channel of every call whose final event has been processed has been used and is in
no pending map, and what a call for providers is told are the peers that its query has reported,
each once. -/
theorem calls_answered {disk : Disk} {store : Store} {ledger : Ledger Peer}
    {receipts : List Receipt} {repIdentity : Ed25519.SigningKey} {now : UInt64}
    {events : List (CallEvent Peer)} {w : CallLoop Peer}
    (hrun : runs step (new (.new disk store ledger receipts repIdentity now)) events = some w) :
    (w.sent.map Prod.fst).Nodup ∧
    (∀ c call, w.calls[c]? = some call → ¬ w.Live call →
      (∃ reply, (c, reply) ∈ w.sent) ∧ w.held call = none) ∧
    ∀ (c query : Nat) reply, w.calls[c]? = some (.query .getProviders query) →
      (c, reply) ∈ w.sent → ∃ peers, reply = .providers peers ∧ peers.Nodup ∧
        ∀ p, p ∈ peers ↔ (query, p) ∈ w.reported := by
  have hend : w.Attended :=
    runs_invariant' (fun _ _ _ h hs => h.step hs) (attended_new rfl) hrun
  refine ⟨hend.desk.once, fun c call hcall hover => ?_, fun c query reply hcall hsent => ?_⟩
  · obtain ⟨hused, hfree⟩ := hend.desk.answered hcall hover
    obtain ⟨⟨c', reply⟩, hsent, rfl⟩ := List.mem_map.mp hused
    exact ⟨⟨reply, hsent⟩, hfree⟩
  · obtain ⟨-, peers, hreply, hnodup, hmem⟩ := hend.collected.told c query reply hcall hsent
    exact ⟨peers, hreply, hnodup, hmem⟩

end

/-- A node asks a peer for its receipts and for a manifest, for the providers of a root and to put
a record. The peer answers, the query fails after it has found two peers, one of them twice, and the
record is refused. -/
def threeCalls : List (CallEvent Nat) :=
  [.node (.identified 1 (.ofByte 1)), .node (.sendRequest 1 .getReceipts), .findProviders,
    .progressed 0 (.foundProviders [1]) false, .node (.response 1 0 (.receipts [])),
    .putRecord false, .progressed 0 (.foundProviders [2, 1]) false,
    .node (.response 1 1 (.receipts [])), .progressed 0 .providersFailed true]

/-- Three calls, each answered once; the second is told of the peers 1 and 2. -/
theorem calls_answered_three :
    let _ := blake3OfX
    let _ := noSignatures
    let _ := oneSymbolCode
    ∃ w, runs step (new (.new (Disk.fresh ∅ ∅ some) Store.fresh ⟨∅⟩ [] (.ofByte 0) 100))
        threeCalls = some w ∧
      w.sent.map Prod.fst = [2, 0, 1] ∧
      (w.sent.map Prod.fst).Nodup ∧
      (∀ c call, w.calls[c]? = some call → ¬ w.Live call →
        (∃ reply, (c, reply) ∈ w.sent) ∧ w.held call = none) ∧
      ∀ (c query : Nat) reply, w.calls[c]? = some (.query .getProviders query) →
        (c, reply) ∈ w.sent → ∃ peers, reply = .providers peers ∧ peers.Nodup ∧
          ∀ p, p ∈ peers ↔ (query, p) ∈ w.reported := by
  intro _ _ _
  have hrun : ∃ w, runs step (new (.new (Disk.fresh ∅ ∅ some) Store.fresh ⟨∅⟩ [] (.ofByte 0) 100))
      threeCalls = some w ∧ w.sent.map Prod.fst = [2, 0, 1] := ⟨_, rfl, rfl⟩
  obtain ⟨w, hrun, hsent⟩ := hrun
  exact ⟨w, hrun, hsent, calls_answered hrun⟩

end CallLoop

end Np2ptp
