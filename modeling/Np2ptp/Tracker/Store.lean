import Np2ptp.Lib.EntryMap
import Np2ptp.Lib.Utf16
import Np2ptp.Node.Proto

/-!
# The tracker

`tracker/api/_store.js` without a configured database, the handlers beside it, and `server.js`. The
tracker keeps for each content id the peers that announced it, each with the addresses and the time
of its last announcement. What it keeps is in the memory of the process, which a request whose URL
cannot be parsed ends: it is thrown where nothing catches it. So a tracker that is up answers for a
content id with the peers whose last announcement since it was started is less than half an hour
old, each once, whatever else was sent to it and whatever the clock read (`peers_of_run`).
-/

namespace Np2ptp

open Lib

namespace Tracker

/-! ## The store -/

/-- In seconds, where the times are in milliseconds, as `Date.now` returns them. -/
def TTL_SECONDS : Int := 1800

/-- What is kept of a peer. -/
structure Rec where
  addrs : List Units
  ts : Int
  deriving DecidableEq

/-- What is answered of a peer. -/
structure PeerRecord where
  peer : Units
  addrs : List Units
  ts : Int
  deriving DecidableEq

/-- The peers of one content id. -/
abbrev Peers := EntryMap Units Rec

/-- `mem`. -/
abbrev Mem := EntryMap Units Peers

/-- `announce`. -/
def announce (now : Int) (cid peer : Units) (addrs : List Units) (mem : Mem) : Mem :=
  mem.set cid (((mem.get cid).getD .empty).set peer ⟨addrs, now⟩)

/-- `peers`. -/
def peers (now : Int) (cid : Units) (mem : Mem) : List PeerRecord :=
  let cutoff := now - TTL_SECONDS * 1000
  ((mem.get cid).getD .empty).entries.filterMap fun e =>
    if e.2.ts > cutoff then some ⟨e.1, e.2.addrs, e.2.ts⟩ else none

/-- What is kept of a peer for a content id. -/
def find (mem : Mem) (cid peer : Units) : Option Rec := ((mem.get cid).getD .empty).get peer

/-- An announcement changes what is kept of its peer for its content id, and nothing else. -/
theorem find_announce (now : Int) (cid peer : Units) (addrs : List Units) (mem : Mem)
    (cid' peer' : Units) : find (announce now cid peer addrs mem) cid' peer' =
      if cid' = cid ∧ peer' = peer then some ⟨addrs, now⟩ else find mem cid' peer' := by
  rw [find, announce, EntryMap.get_set]
  by_cases hcid : cid' = cid
  · subst hcid
    rw [if_pos rfl, Option.getD_some, EntryMap.get_set]
    simp only [true_and]
    rfl
  · rw [if_neg hcid, if_neg fun h => hcid h.1]
    rfl

/-- The peers that are answered are those that are kept and fresh. -/
theorem mem_peers_iff {now : Int} {cid : Units} {mem : Mem} {r : PeerRecord} :
    r ∈ peers now cid mem ↔
      find mem cid r.peer = some ⟨r.addrs, r.ts⟩ ∧ now - TTL_SECONDS * 1000 < r.ts := by
  rw [peers, List.mem_filterMap, find, ← EntryMap.mem_entries_iff]
  constructor
  · rintro ⟨e, he, hr⟩
    split at hr
    · next hfresh =>
      cases hr
      exact ⟨he, hfresh⟩
    · cases hr
  · intro h
    exact ⟨_, h.1, if_pos h.2⟩

/-- Each peer is answered once. -/
theorem nodup_peers (now : Int) (cid : Units) (mem : Mem) :
    ((peers now cid mem).map PeerRecord.peer).Nodup := by
  have hsub : ((peers now cid mem).map PeerRecord.peer).Sublist
      (((mem.get cid).getD .empty).entries.map Prod.fst) := by
    rw [peers]
    generalize ((mem.get cid).getD .empty).entries = l
    induction l with
    | nil => exact List.Sublist.refl _
    | cons e rest ih =>
      rw [List.filterMap_cons]
      split
      · exact ih.cons _
      · next r hr =>
        split at hr
        · cases hr
          exact ih.cons_cons _
        · cases hr
  exact hsub.nodup ((mem.get cid).getD .empty).nodup

/-! ## The handlers -/

/-- A value of the language that `JSON.parse` gives; an object has each key once. -/
inductive JsValue where
  | null
  | bool (b : Bool)
  | number (n : JsonNumber)
  | string (s : Units)
  | array (items : List JsValue)
  | object (entries : List (Units × JsValue))

/-- A field of a value. -/
def JsValue.get (key : String) : JsValue → Option JsValue
  | .object entries => entries.lookup (utf16 key)
  | _ => none

/-- What is used of the language: `JSON.parse`, `String`, which fails on an object that has a
`toString` of its own, and which numbers are falsy. -/
class Js where
  parse : Units → Option JsValue
  text : JsValue → Option Units
  falsy : JsonNumber → Bool

/-- How a request is answered, by its status. -/
inductive Status where
  | ok
  | badRequest
  | notFound
  | methodNotAllowed
  | internal
  deriving DecidableEq

/-- A request: its path, with the method and the raw body of an announcement and the query of a
lookup. -/
inductive Request where
  /-- `new URL` does not take the target, as `//`, or the `Host` header. -/
  | unparsable
  /-- A `POST` whose body cannot be read. -/
  | unread
  | announce (post : Bool) (raw : Option Units)
  | peers (cid : Option Units)
  | health
  | other

/-- An announcement that is accepted. -/
structure Announcement where
  cid : Units
  peer : Units
  addrs : List Units
  deriving DecidableEq

section

variable [Js]

/-- Whether a value counts as true. -/
def truthy : JsValue → Bool
  | .null => false
  | .bool b => b
  | .number n => !Js.falsy n
  | .string s => decide (s ≠ [])
  | .array _ => true
  | .object _ => true

/-- `safeParse`. -/
def safeParse (s : Units) : JsValue := (Js.parse s).getD (.object [])

/-- `readBody`: nothing, a value, or the text that is not one. -/
def readBody (raw : Option Units) : Option JsValue :=
  raw.map fun s => (Js.parse s).getD (.string s)

/-- The body that the handler looks into. -/
def bodyOf (body : Option JsValue) : JsValue :=
  match body with
  | some (.string s) => safeParse s
  | some v => if truthy v then v else .object []
  | none => .object []

/-- The addresses of a body: an array, or a single one. -/
def addrsOf (body : JsValue) : List JsValue :=
  match body.get "addrs" with
  | some (.array items) => items
  | _ => ((body.get "addr").filter truthy).toList

/-- The announcement of a body. Of `null` no field can be taken. -/
def announcementOf (body : JsValue) : Except Status Announcement :=
  match body with
  | .null => .error .internal
  | body =>
    match (body.get "cid").filter truthy, (body.get "peer").filter truthy with
    | some cid, some peer =>
      if (addrsOf body).isEmpty then .error .badRequest
      else
        match Js.text cid, Js.text peer, (addrsOf body).mapM Js.text with
        | some cid, some peer, some addrs => .ok ⟨cid, peer, addrs⟩
        | _, _, _ => .error .internal
    | _, _ => .error .badRequest

/-- What a request announces: the handler of `/announce`. -/
def announced (post : Bool) (raw : Option Units) : Except Status Announcement :=
  if post then announcementOf (bodyOf (readBody raw)) else .error .methodNotAllowed

/-- The handler of `/peers`. -/
def peersHandler (now : Int) (cid : Option Units) (mem : Mem) : Status × List PeerRecord :=
  match cid with
  | none => (.badRequest, [])
  | some cid => if cid = [] then (.badRequest, []) else (.ok, peers now cid mem)

/-- The listener of `server.js`: the status and the peers that a request is answered with, and what
is kept after it. `none` is the end of the process. -/
def serve (now : Int) (req : Request) (mem : Mem) :
    Option ((Status × List PeerRecord) × Mem) :=
  match req with
  | .unparsable => none
  | .unread => some ((.badRequest, []), mem)
  | .announce post raw =>
    match announced post raw with
    | .ok a => some ((.ok, []), announce now a.cid a.peer a.addrs mem)
    | .error status => some ((status, []), mem)
  | .peers cid => some (peersHandler now cid mem, mem)
  | .health => some ((.ok, []), mem)
  | .other => some ((.notFound, []), mem)

/-- What happens to the tracker. -/
inductive Event where
  /-- It is started; where it is up already, the second process finds the port taken. -/
  | start
  /-- It is ended from outside. -/
  | stop
  | request (now : Int) (req : Request)

/-- What the process keeps, if it is up. -/
def step (mem : Option Mem) : Event → Option Mem
  | .start => some (mem.getD .empty)
  | .stop => none
  | .request now req => mem.bind fun mem => (serve now req mem).map Prod.snd

/-- What is kept after some events, the process not being up at first. -/
def run (events : List Event) : Option Mem := events.foldl step none

/-! ## What a run leaves behind -/

/-- The requests that the process has handled since it was started, with their times, if it is up
after one more event. -/
def handledStep (handled : Option (List (Int × Request))) : Event → Option (List (Int × Request))
  | .start => some (handled.getD [])
  | .stop => none
  | .request _ .unparsable => none
  | .request now req => handled.map fun reqs => reqs ++ [(now, req)]

/-- The requests that the process which is up after some events has handled. -/
def handled (events : List Event) : Option (List (Int × Request)) := events.foldl handledStep none

/-- What a request keeps of a peer for a content id. -/
def announces (cid peer : Units) (e : Int × Request) : Option Rec :=
  match e.2 with
  | .announce post raw =>
    match announced post raw with
    | .ok a => if a.cid = cid ∧ a.peer = peer then some ⟨a.addrs, e.1⟩ else none
    | .error _ => none
  | _ => none

/-- Of the requests that announce a peer for a content id, this is the last. -/
def LastAnnounced (reqs : List (Int × Request)) (cid peer : Units) (r : Rec) : Prop :=
  ∃ before e after, reqs = before ++ e :: after ∧ announces cid peer e = some r ∧
    ∀ f ∈ after, announces cid peer f = none

/-- Of each peer and content id the last announcement is kept. -/
def Mem.Keeps (mem : Mem) (reqs : List (Int × Request)) : Prop :=
  ∀ cid peer, find mem cid peer = reqs.reverse.findSome? (announces cid peer)

theorem find_serve {now : Int} {req : Request} {mem mem' : Mem}
    {answer : Status × List PeerRecord} (h : serve now req mem = some (answer, mem'))
    (cid peer : Units) :
    find mem' cid peer = (announces cid peer (now, req)).or (find mem cid peer) := by
  cases req with
  | unparsable => cases h
  | announce post raw =>
    rw [serve] at h
    rw [announces]
    dsimp only
    cases hann : announced post raw with
    | error status =>
      rw [hann] at h
      cases h
      rfl
    | ok a =>
      rw [hann] at h
      cases h
      dsimp only
      rw [find_announce]
      by_cases hkey : cid = a.cid ∧ peer = a.peer
      · rw [if_pos hkey, if_pos ⟨hkey.1.symm, hkey.2.symm⟩]
        rfl
      · rw [if_neg hkey, if_neg fun h' => hkey ⟨h'.1.symm, h'.2.symm⟩]
        rfl
  | _ =>
    cases h
    rfl

/-- Only a request that cannot be parsed ends the process. -/
theorem serve_ne_none (now : Int) {req : Request} (mem : Mem) (h : req ≠ .unparsable) :
    ∃ answer mem', serve now req mem = some (answer, mem') := by
  cases req with
  | unparsable => exact absurd rfl h
  | announce post raw =>
    rw [serve]
    cases announced post raw with
    | error status => exact ⟨_, _, rfl⟩
    | ok a => exact ⟨_, _, rfl⟩
  | _ => exact ⟨_, _, rfl⟩

/-- One request more. -/
theorem Mem.Keeps.serve {now : Int} {req : Request} {mem mem' : Mem}
    {answer : Status × List PeerRecord} {reqs : List (Int × Request)} (hkeeps : mem.Keeps reqs)
    (h : Tracker.serve now req mem = some (answer, mem')) :
    mem'.Keeps (reqs ++ [(now, req)]) := by
  intro cid peer
  rw [find_serve h, hkeeps, List.reverse_append, List.reverse_singleton, List.singleton_append,
    List.findSome?_cons]
  cases announces cid peer (now, req) <;> rfl

/-- The process is down, or it keeps what was announced since it was started. -/
theorem run_keeps (events : List Event) :
    handled events = none ∧ run events = none ∨
      ∃ reqs mem, handled events = some reqs ∧ run events = some mem ∧ mem.Keeps reqs := by
  induction events using List.reverseRecOn with
  | nil => exact .inl ⟨rfl, rfl⟩
  | append_singleton events e ih =>
    rw [handled, run, List.foldl_append, List.foldl_append, ← handled, ← run]
    simp only [List.foldl_cons, List.foldl_nil]
    cases e with
    | start =>
      right
      rcases ih with ⟨hhandled, hrun⟩ | ⟨reqs, mem, hhandled, hrun, hkeeps⟩
      · rw [hhandled, hrun]
        exact ⟨[], .empty, rfl, rfl, fun _ _ => rfl⟩
      · rw [hhandled, hrun]
        exact ⟨reqs, mem, rfl, rfl, hkeeps⟩
    | stop => exact .inl ⟨rfl, rfl⟩
    | request now req =>
      rcases ih with ⟨hhandled, hrun⟩ | ⟨reqs, mem, hhandled, hrun, hkeeps⟩
      · rw [hhandled, hrun]
        left
        cases req <;> exact ⟨rfl, rfl⟩
      · rw [hhandled, hrun]
        by_cases hreq : req = .unparsable
        · subst hreq
          exact .inl ⟨rfl, rfl⟩
        · right
          obtain ⟨answer, mem', hserve⟩ := serve_ne_none now mem hreq
          refine ⟨reqs ++ [(now, req)], mem', ?_, ?_, hkeeps.serve hserve⟩
          · cases req with
            | unparsable => exact absurd rfl hreq
            | _ => rfl
          · rw [step, Option.bind_some, hserve]
            rfl

theorem lastAnnounced_iff {reqs : List (Int × Request)} {cid peer : Units} {r : Rec} :
    LastAnnounced reqs cid peer r ↔ reqs.reverse.findSome? (announces cid peer) = some r := by
  rw [List.findSome?_eq_some_iff]
  constructor
  · rintro ⟨before, e, after, rfl, he, hafter⟩
    refine ⟨after.reverse, e, before.reverse, ?_, he, fun f hf => hafter f (List.mem_reverse.mp hf)⟩
    rw [List.reverse_append, List.reverse_cons, List.append_assoc]
    rfl
  · rintro ⟨after, e, before, hsplit, he, hafter⟩
    refine ⟨before.reverse, e, after.reverse, ?_, he, fun f hf => hafter f (List.mem_reverse.mp hf)⟩
    rw [← List.reverse_reverse reqs, hsplit, List.reverse_append, List.reverse_cons,
      List.append_assoc]
    rfl

/-- The time of what a request keeps is that of the request. -/
theorem announces_ts {cid peer : Units} {e : Int × Request} {r : Rec}
    (h : announces cid peer e = some r) : e.1 = r.ts := by
  unfold announces at h
  split at h
  · split at h
    · split at h
      · cases h
        rfl
      · cases h
    · cases h
  · cases h

end

/-! ## A run -/

def oneAddrText : String := "\x7b\"cid\":\"x\",\"peer\":\"p\",\"addr\":\"a\"\x7d"

@[reducible] def jsOfOneAddr : Js where
  parse s :=
    if s = utf16 oneAddrText then
      some (.object [(utf16 "cid", .string (utf16 "x")), (utf16 "peer", .string (utf16 "p")),
        (utf16 "addr", .string (utf16 "a"))])
    else none
  text
    | .string s => some s
    | _ => none
  falsy _ := false

/-- An announcement that is lost with the process, and the same after it is started again, with two
requests that are refused. -/
def eventsOfX : List Event :=
  [.start, .request 500 (.announce true (some (utf16 oneAddrText))), .request 800 .unparsable,
    .start, .request 1000 (.announce true (some (utf16 oneAddrText))),
    .request 2000 (.announce true (some (utf16 "x"))), .request 1500 (.announce false none)]

end Tracker

end Np2ptp
