import Mathlib.Data.Nat.Find
import Np2ptp.Core.Hash
import Np2ptp.Tracker.Store

/-!
# Finding peers with a tracker

What the daemon says to the tracker and what it makes of the answers (`tracker_announce`,
`tracker_get_peers` and `announce_loop` of `daemon/mod.rs`; `tracker.rs` has the same for the
command line). Addresses are published with the id of the peer at their end, so what a client gets
of a peer are addresses that it can dial. A seed announces itself every two minutes and an
announcement lasts for thirty, so as long as the tracker stays up and no fourteen announcements fail
one after the other, the seed is among the peers that are answered, and is found if the strings of
all of these are text; one string that is not makes the answer unreadable as a whole
(`seed_stays_discoverable`).
-/

namespace Np2ptp

open Lib

/-- The text of a root. -/
def Hash.hexText (h : Hash) : String := String.ofList (h.toHex.map fun b => Char.ofNat b.toNat)

theorem Hash.hexText_ne (h : Hash) : h.hexText ≠ "" := by
  intro he
  have hlength := congrArg (·.toList.length) he
  rw [Hash.hexText, String.toList_ofList, List.length_map, h.toHex_length] at hlength
  cases hlength

namespace Tracker

/-- What is used of peer ids and multiaddresses. -/
class Multiformats (Peer Addr : Type) where
  peerText : Peer → String
  parsePeer : String → Option Peer
  addrText : Addr → String
  parseAddr : String → Option Addr
  /-- The address with a `/p2p/` component at its end. -/
  withPeer : Addr → Peer → Addr

open Multiformats

/-- What is documented of them: texts are read as what they are of, and no peer id is empty. -/
structure Multiformats.Lawful (Peer Addr : Type) [Multiformats Peer Addr] : Prop where
  parse_peer : ∀ p : Peer, parsePeer Addr (peerText Addr p) = some p
  parse_addr : ∀ a : Addr, parseAddr Peer (addrText Peer a) = some a
  parse_full : ∀ (a : Addr) (p : Peer),
    parseAddr Peer (addrText Peer a ++ ("/p2p/" ++ peerText Addr p)) = some (withPeer a p)
  peer_ne : ∀ p : Peer, peerText Addr p ≠ ""

/-- An entry of an answer. -/
structure PeerEntry where
  peer : String
  addrs : List String
  addr : Option String
  deriving DecidableEq

mutual

/-- What `JSON.parse` makes of a value that is written as text. -/
def Json.toJs : Json → JsValue
  | .null => .null
  | .bool b => .bool b
  | .number n => .number n
  | .string s => .string (utf16 s)
  | .array items => .array (itemsToJs items)
  | .object entries => .object (entriesToJs entries)

def itemsToJs : List Json → List JsValue
  | [] => []
  | v :: rest => Json.toJs v :: itemsToJs rest

def entriesToJs : List (String × Json) → List (Units × JsValue)
  | [] => []
  | (key, v) :: rest => (utf16 key, Json.toJs v) :: entriesToJs rest

end

theorem itemsToJs_strings (ss : List String) :
    itemsToJs (ss.map Json.string) = (ss.map utf16).map JsValue.string := by
  induction ss with
  | nil => rfl
  | cons s rest ih =>
    rw [List.map_cons, List.map_cons, List.map_cons, itemsToJs, ih, Json.toJs]

/-- What is used of JSON texts: the body of a request is written by the daemon, that of an answer
by the tracker, and the daemon reads it. -/
class Wire where
  /-- The text of the body, as the tracker has it. -/
  serialize : Json → Units
  /-- `JSON.stringify`, and the bytes of the text. -/
  stringify : JsValue → Bytes
  /-- `from_slice::<PeersResp>`. -/
  fromSlice : Bytes → Option (List PeerEntry)

/-- The answer to a lookup. -/
def peersJson (cid : Units) (found : List PeerRecord) : JsValue :=
  .object [(utf16 "cid", .string cid), (utf16 "count", .number (.unsigned (.ofNat found.length))),
    (utf16 "peers", .array (found.map fun r => .object [(utf16 "peer", .string r.peer),
      (utf16 "addrs", .array (r.addrs.map .string)),
      (utf16 "ts", .number (.unsigned (.ofInt r.ts)))]))]

/-- What `from_slice` makes of an entry of the answer: it takes no string that is not text. -/
def PeerRecord.read (r : PeerRecord) : Option PeerEntry :=
  (readUtf16 r.peer).bind fun peer =>
    (r.addrs.mapM readUtf16).map fun addrs => ⟨peer, addrs, none⟩

/-- `TRACKER_MAX_BODY`. -/
def TRACKER_MAX_BODY : Nat := 4 * 1024 * 1024

/-- The loop that reads an answer. -/
def readCapped : Bytes → List Bytes → Option Bytes
  | body, [] => some body
  | body, chunk :: rest =>
    if body.length + chunk.length > TRACKER_MAX_BODY then none else readCapped (body ++ chunk) rest

/-- An answer is read if it is short enough, and no more of one is kept. -/
theorem readCapped_eq (chunks : List Bytes) : ∀ body : Bytes, body.length ≤ TRACKER_MAX_BODY →
    readCapped body chunks =
      if (body ++ chunks.flatten).length ≤ TRACKER_MAX_BODY then some (body ++ chunks.flatten)
      else none := by
  induction chunks with
  | nil =>
    intro body hbody
    rw [List.flatten_nil, List.append_nil, if_pos hbody]
    rfl
  | cons chunk rest ih =>
    intro body hbody
    rw [readCapped, List.flatten_cons, ← List.append_assoc]
    by_cases hfits : body.length + chunk.length > TRACKER_MAX_BODY
    · rw [if_pos hfits, if_neg]
      rw [List.length_append, List.length_append]
      omega
    · rw [if_neg hfits]
      refine ih (body ++ chunk) ?_
      rw [List.length_append]
      omega

variable {Peer Addr : Type} [Multiformats Peer Addr]

/-- `addr_strs_with_peer`. -/
def addrStrsWithPeer (addrs : List Addr) (peer : Peer) : List String :=
  let suffix := "/p2p/" ++ peerText Addr peer
  addrs.map fun a =>
    let s := addrText Peer a
    if suffix.toList.isSuffixOf s.toList then s else s ++ suffix

/-- The body of `tracker_announce`. -/
def announceBody (cid : Hash) (peer : Peer) (addrs : List Addr) : Json :=
  .object [("addrs", Json.strings (addrStrsWithPeer addrs peer)), ("cid", .string cid.hexText),
    ("peer", .string (peerText Addr peer))]

/-- `tracker_announce`, as the tracker receives it. -/
def trackerAnnounce [Wire] (cid : Hash) (peer : Peer) (addrs : List Addr) : Request :=
  .announce true (some (Wire.serialize (announceBody cid peer addrs)))

/-- The loop over the entries of an answer. -/
def discovered (entries : List PeerEntry) : List (Peer × List Addr) :=
  entries.filterMap fun entry =>
    (parsePeer Addr entry.peer).bind fun peer =>
      let addrs := entry.addrs.filterMap (parseAddr Peer) ++
        (entry.addr.bind (parseAddr Peer)).toList
      if addrs.isEmpty then none else some (peer, addrs)

/-- `tracker_get_peers`, given the chunks of the body of the answer. -/
def trackerGetPeers [Wire] (chunks : List Bytes) : Option (List (Peer × List Addr)) :=
  (readCapped [] chunks).bind fun body => (Wire.fromSlice body).map discovered

/-- `get_peers` of `tracker.rs`. -/
def getPeers [Wire] (body : Bytes) : Option (List (Peer × List Addr)) :=
  (Wire.fromSlice body).map discovered

/-! ## What a seed announces and what a client gets of it -/

/-- The address that is published: with the id of the peer, which some have already. -/
def published (peer : Peer) (a : Addr) : Addr :=
  if ("/p2p/" ++ peerText Addr peer).toList.isSuffixOf (addrText Peer a).toList then a
  else withPeer a peer

/-- What is published is read, every address of it. -/
theorem filterMap_addrStrsWithPeer (h : Multiformats.Lawful Peer Addr) (addrs : List Addr)
    (peer : Peer) : (addrStrsWithPeer addrs peer).filterMap (parseAddr Peer) =
      addrs.map (published peer) := by
  rw [addrStrsWithPeer, List.filterMap_map, ← List.filterMap_eq_map]
  refine List.filterMap_congr fun a _ => ?_
  simp only [Function.comp_apply, published]
  split
  · exact h.parse_addr a
  · exact h.parse_full a peer

/-- What is made of each of some values is undone for all of them. -/
theorem mapM_map_of_inverse {α β : Type} {f : β → Option α} {g : α → β} (h : ∀ a, f (g a) = some a)
    (l : List α) : (l.map g).mapM f = some l := by
  induction l with
  | nil => rfl
  | cons a rest ih => rw [List.map_cons, List.mapM_cons, h, ih]; rfl

/-- An announcement of some addresses is accepted as it was made, and one of none is refused. -/
theorem announced_trackerAnnounce [Js] [Wire] (hlaw : Multiformats.Lawful Peer Addr)
    (htext : ∀ s, Js.text (.string s) = some s) {cid : Hash} {peer : Peer} {addrs : List Addr}
    (hwire : Js.parse (Wire.serialize (announceBody cid peer addrs)) =
      some (Json.toJs (announceBody cid peer addrs))) :
    announced true (some (Wire.serialize (announceBody cid peer addrs))) =
      if addrs.isEmpty then .error .badRequest
      else .ok ⟨utf16 cid.hexText, utf16 (peerText Addr peer),
        (addrStrsWithPeer addrs peer).map utf16⟩ := by
  have hcid : truthy (.string (utf16 cid.hexText)) = true :=
    decide_eq_true (utf16_ne_nil cid.hexText_ne)
  have hpeer : truthy (.string (utf16 (peerText Addr peer))) = true :=
    decide_eq_true (utf16_ne_nil (hlaw.peer_ne peer))
  have hbody : bodyOf (readBody (some (Wire.serialize (announceBody cid peer addrs)))) =
      Json.toJs (announceBody cid peer addrs) := by
    rw [readBody, Option.map_some, hwire]
    rfl
  have hvalue : Json.toJs (announceBody cid peer addrs) = .object
      [(utf16 "addrs", .array (((addrStrsWithPeer addrs peer).map utf16).map .string)),
        (utf16 "cid", .string (utf16 cid.hexText)),
        (utf16 "peer", .string (utf16 (peerText Addr peer)))] := by
    rw [← itemsToJs_strings]
    rfl
  have haddrs : addrsOf (Json.toJs (announceBody cid peer addrs)) =
      ((addrStrsWithPeer addrs peer).map utf16).map .string := by
    rw [hvalue]
    rfl
  have hget (key : String) (v : JsValue)
      (h : (Json.toJs (announceBody cid peer addrs)).get key = some v) (htrue : truthy v = true) :
      ((Json.toJs (announceBody cid peer addrs)).get key).filter truthy = some v := by
    rw [h, Option.filter_some, if_pos htrue]
  have hgetCid := hget "cid" _ (by rw [hvalue]; rfl) hcid
  have hgetPeer := hget "peer" _ (by rw [hvalue]; rfl) hpeer
  rw [announced, if_pos rfl, hbody]
  simp only [hvalue] at hgetCid hgetPeer haddrs ⊢
  simp only [announcementOf, hgetCid, hgetPeer, haddrs, htext, mapM_map_of_inverse htext]
  cases addrs with
  | nil => rfl
  | cons a rest => rfl

/-! ## A seed that announces itself -/

/-- `ANNOUNCE_INTERVAL`. -/
def ANNOUNCE_INTERVAL : Int := 120 * 1000

/-- `TRACKER_TIMEOUT`. -/
def TRACKER_TIMEOUT : Int := 30 * 1000

variable [DecidableEq Addr]

/-- The addresses that `announce_loop` announces: those of the listeners, and the external ones that
are not among them. -/
def announcedAddrs (listeners externals : List Addr) : List Addr :=
  externals.foldl (fun addrs ext => if ext ∈ addrs then addrs else addrs ++ [ext]) listeners

omit [Multiformats Peer Addr] in
theorem mem_announcedAddrs {listeners externals : List Addr} {a : Addr} :
    a ∈ announcedAddrs listeners externals ↔ a ∈ listeners ∨ a ∈ externals := by
  unfold announcedAddrs
  induction externals generalizing listeners with
  | nil => simp
  | cons ext rest ih =>
    rw [List.foldl_cons, ih]
    split
    · next hmem =>
      rw [List.mem_cons]
      constructor
      · rintro (h | h)
        · exact .inl h
        · exact .inr (.inr h)
      · rintro (h | rfl | h)
        · exact .inl h
        · exact .inl hmem
        · exact .inr h
    · rw [List.mem_append, List.mem_singleton, List.mem_cons, or_assoc]

/-- The ticks of the interval of `announce_loop`: the first at once. -/
def tick (start : Int) (i : Nat) : Int := start + i * ANNOUNCE_INTERVAL

section

variable [Js] [Wire]

/-- What the loop announces at a tick. -/
def loopAnnounce (root : Hash) (peer : Peer) (listeners externals : Nat → List Addr) (i : Nat) :
    Request :=
  trackerAnnounce root peer (announcedAddrs (listeners i) (externals i))

/-- A seed announces itself under a root, its loop having begun at `start`; these are the requests
that the tracker has handled. The announcement `i` has been handled at the time `arrived i`, if at
all. Times are those of the clock of the tracker. -/
structure Announcing (root : Hash) (peer : Peer) (start now : Int)
    (listeners externals : Nat → List Addr) (arrived : Nat → Option Int)
    (reqs : List (Int × Request)) : Prop where
  /-- The clock does not go back. -/
  ordered : reqs.Pairwise fun e f => e.1 ≤ f.1
  /-- What arrives does so before the request times out. -/
  inTime : ∀ i t, arrived i = some t → tick start i ≤ t ∧ t ≤ tick start i + TRACKER_TIMEOUT
  logged : ∀ i t, arrived i = some t → t ≤ now →
    (t, loopAnnounce root peer listeners externals i) ∈ reqs
  /-- The node has an address then. -/
  reachable : ∀ i t, arrived i = some t → listeners i ≠ [] ∨ externals i ≠ []
  carried : ∀ i, Js.parse (Wire.serialize (announceBody root peer
      (announcedAddrs (listeners i) (externals i)))) =
    some (Json.toJs (announceBody root peer (announcedAddrs (listeners i) (externals i))))
  /-- Nobody else announces anything under the id of the seed. -/
  own : ∀ e ∈ reqs, (announces (utf16 root.hexText) (utf16 (peerText Addr peer)) e).isSome →
    ∃ i, e.2 = loopAnnounce root peer listeners externals i

omit [Wire] in
/-- A key that is announced is announced a last time. -/
theorem exists_lastAnnounced {reqs : List (Int × Request)} {cid peer : Units} {e : Int × Request}
    (he : e ∈ reqs) (hsome : (announces cid peer e).isSome) :
    ∃ r, LastAnnounced reqs cid peer r := by
  have hfound : (reqs.reverse.findSome? (announces cid peer)).isSome := by
    rw [List.findSome?_isSome_iff]
    exact ⟨e, List.mem_reverse.mpr he, hsome⟩
  obtain ⟨r, hr⟩ := Option.isSome_iff_exists.mp hfound
  exact ⟨r, lastAnnounced_iff.mpr hr⟩

omit [Wire] in
/-- What is announced last is announced no earlier than anything else. -/
theorem LastAnnounced.le_ts {reqs : List (Int × Request)} {cid peer : Units} {r : Rec}
    (h : LastAnnounced reqs cid peer r) (hordered : reqs.Pairwise fun e f => e.1 ≤ f.1)
    {e : Int × Request} (he : e ∈ reqs) (hsome : (announces cid peer e).isSome) :
    e.1 ≤ r.ts := by
  obtain ⟨before, last, after, rfl, hlast, hafter⟩ := h
  have hts : last.1 = r.ts := announces_ts hlast
  rcases List.mem_append.mp he with hm | hm
  · rw [← hts]
    exact (List.pairwise_append.mp hordered).2.2 e hm last List.mem_cons_self
  · rcases List.mem_cons.mp hm with rfl | hm
    · exact hts.le
    · rw [hafter e hm] at hsome
      cases hsome

variable {root : Hash} {peer : Peer} {start now : Int} {listeners externals : Nat → List Addr}
  {arrived : Nat → Option Int} {reqs : List (Int × Request)}

theorem Announcing.announces_eq
    (h : Announcing root peer start now listeners externals arrived reqs)
    (hlaw : Multiformats.Lawful Peer Addr) (htext : ∀ s, Js.text (.string s) = some s) (i : Nat)
    (t : Int) : announces (utf16 root.hexText) (utf16 (peerText Addr peer))
      (t, loopAnnounce root peer listeners externals i) =
        if (announcedAddrs (listeners i) (externals i)).isEmpty then none
        else some ⟨(addrStrsWithPeer (announcedAddrs (listeners i) (externals i)) peer).map utf16,
          t⟩ := by
  rw [announces, loopAnnounce, trackerAnnounce]
  dsimp only
  rw [announced_trackerAnnounce hlaw htext (h.carried i)]
  cases announcedAddrs (listeners i) (externals i) with
  | nil => rfl
  | cons a rest => exact if_pos ⟨rfl, rfl⟩

/-- The announcement that is kept of a seed is recent if never fourteen that were due by now have
failed one after the other since the first that was handled. -/
theorem Announcing.recent (h : Announcing root peer start now listeners externals arrived reqs)
    (hlaw : Multiformats.Lawful Peer Addr) (htext : ∀ s, Js.text (.string s) = some s) {i₀ : Nat}
    {t₀ : Int} (hfirst : arrived i₀ = some t₀) (ht₀ : t₀ ≤ now)
    (hfail : ∀ i, i₀ ≤ i → tick start (i + 13) + TRACKER_TIMEOUT ≤ now →
      ∃ j, i ≤ j ∧ j < i + 14 ∧ (arrived j).isSome) : ∃ i ts,
    announcedAddrs (listeners i) (externals i) ≠ [] ∧
    LastAnnounced reqs (utf16 root.hexText) (utf16 (peerText Addr peer))
      ⟨(addrStrsWithPeer (announcedAddrs (listeners i) (externals i)) peer).map utf16, ts⟩ ∧
    now - 1710000 < ts := by
  classical
  -- the last announcement that has arrived by now
  let P : Nat → Prop := fun i => ∃ t, arrived i = some t ∧ t ≤ now
  have hbound : ∀ i, P i → i ≤ (now - start).toNat := by
    rintro i ⟨t, ht, hle⟩
    have htick := (h.inTime i t ht).1
    unfold tick ANNOUNCE_INTERVAL at htick
    omega
  have hP₀ : P i₀ := ⟨t₀, hfirst, ht₀⟩
  have hP : P (Nat.findGreatest P (now - start).toNat) :=
    Nat.findGreatest_spec (hbound i₀ hP₀) hP₀
  have hge : i₀ ≤ Nat.findGreatest P (now - start).toNat :=
    Nat.le_findGreatest (hbound i₀ hP₀) hP₀
  generalize hi : Nat.findGreatest P (now - start).toNat = i at hP hge
  obtain ⟨t, ht, hle⟩ := hP
  -- the next fourteen are not all due yet, or one of them would have arrived
  have hdue : now < tick start (i + 14) + TRACKER_TIMEOUT := by
    by_contra hnot
    obtain ⟨j, hij, hj, hsome⟩ := hfail (i + 1) (by omega) (not_lt.mp hnot)
    obtain ⟨t', ht'⟩ := Option.isSome_iff_exists.mp hsome
    have hto := (h.inTime j t' ht').2
    have hlate : t' ≤ now := by
      unfold tick ANNOUNCE_INTERVAL at hto hnot
      omega
    have hPj : P j := ⟨t', ht', hlate⟩
    have hmax := Nat.le_findGreatest (hbound j hPj) hPj
    omega
  have hgap : now - 1710000 < t := by
    have hfrom := (h.inTime i t ht).1
    unfold tick ANNOUNCE_INTERVAL at hfrom hdue
    unfold TRACKER_TIMEOUT at hdue
    omega
  have hmem := h.logged i t ht hle
  have hann := h.announces_eq hlaw htext i t
  have hsome : announcedAddrs (listeners i) (externals i) ≠ [] := by
    rcases h.reachable i t ht with hne | hne
    · obtain ⟨a, ha⟩ := List.exists_mem_of_ne_nil _ hne
      exact List.ne_nil_of_mem (mem_announcedAddrs.mpr (.inl ha))
    · obtain ⟨a, ha⟩ := List.exists_mem_of_ne_nil _ hne
      exact List.ne_nil_of_mem (mem_announcedAddrs.mpr (.inr ha))
  rw [if_neg (by rwa [List.isEmpty_iff])] at hann
  obtain ⟨r, hr⟩ := exists_lastAnnounced hmem (by rw [hann]; rfl)
  have hts : t ≤ r.ts := hr.le_ts h.ordered hmem (by rw [hann]; rfl)
  obtain ⟨before, last, after, hsplit, hlast, hafter⟩ := hr
  obtain ⟨k, hk⟩ := h.own last (hsplit ▸ List.mem_append_right _ List.mem_cons_self)
    (by rw [hlast]; rfl)
  have hsame := h.announces_eq hlaw htext k last.1
  rw [← hk, Prod.mk.eta, hlast] at hsame
  split at hsame
  · cases hsame
  · next hne =>
    obtain rfl := Option.some.inj hsame
    exact ⟨k, last.1, by rwa [List.isEmpty_iff] at hne,
      ⟨before, last, after, hsplit, hlast, hafter⟩, hgap.trans_le hts⟩

omit [Js] [Wire] [DecidableEq Addr] [Multiformats Peer Addr] in
/-- Reading some values gives what each of them is read as, or one of them is not read. -/
theorem mapM_cases {α β : Type} (f : α → Option β) (l : List α) :
    (∃ a ∈ l, f a = none) ∧ l.mapM f = none ∨
      ∃ bs, l.mapM f = some bs ∧ ∀ a ∈ l, ∃ b ∈ bs, f a = some b := by
  induction l with
  | nil => exact .inr ⟨[], rfl, fun a ha => (List.not_mem_nil ha).elim⟩
  | cons a rest ih =>
    rw [List.mapM_cons]
    cases hf : f a with
    | none => exact .inl ⟨⟨a, List.mem_cons_self, hf⟩, rfl⟩
    | some b =>
      rcases ih with ⟨⟨a', ha', hnone⟩, hrest⟩ | ⟨bs, hrest, hread⟩
      · rw [hrest]
        exact .inl ⟨⟨a', List.mem_cons_of_mem _ ha', hnone⟩, rfl⟩
      · rw [hrest]
        refine .inr ⟨b :: bs, rfl, fun c hc => ?_⟩
        rcases List.mem_cons.mp hc with rfl | hc
        · exact ⟨b, List.mem_cons_self, hf⟩
        · obtain ⟨d, hd, hfc⟩ := hread c hc
          exact ⟨d, List.mem_cons_of_mem _ hd, hfc⟩

omit [Js] [DecidableEq Addr] in
/-- What a client has of an answer that is short enough: nothing if a string of it is not text. -/
theorem getPeers_of_answer {chunks : List Bytes} {answer : List PeerRecord}
    (hread : Wire.fromSlice chunks.flatten = answer.mapM PeerRecord.read)
    (hsize : chunks.flatten.length ≤ TRACKER_MAX_BODY) :
    (trackerGetPeers chunks : Option (List (Peer × List Addr))) =
        (answer.mapM PeerRecord.read).map discovered ∧
      (getPeers chunks.flatten : Option (List (Peer × List Addr))) =
        (answer.mapM PeerRecord.read).map discovered := by
  refine ⟨?_, by rw [getPeers, hread]⟩
  rw [trackerGetPeers, readCapped_eq _ _ (Nat.zero_le _), List.nil_append, if_pos hsize,
    Option.bind_some, hread]

end

/-! ## A run -/

/-- Addresses are their texts, and there is one peer. -/
@[reducible] def onePeer : Multiformats Unit String where
  peerText _ := "QmSeed"
  parsePeer s := if s = "QmSeed" then some () else none
  addrText a := a
  parseAddr s := some s
  withPeer a _ := a ++ "/p2p/QmSeed"

theorem onePeer_lawful : @Multiformats.Lawful Unit String onePeer := by
  let _ := onePeer
  exact ⟨fun _ => rfl, fun _ => rfl, fun _ _ => rfl, fun _ => show "QmSeed" ≠ "" by decide⟩

def addrOfSeed : String := "/ip4/10.0.0.1/udp/4001/quic-v1"

/-- What the seed announces, and its text. -/
def announcedOfX : Json := @announceBody _ _ onePeer rootOfX () [addrOfSeed]

def announcedText : String :=
  "\x7b\"addrs\":[\"/ip4/10.0.0.1/udp/4001/quic-v1/p2p/QmSeed\"],\"cid\":\"" ++ rootOfX.hexText ++
    "\",\"peer\":\"QmSeed\"\x7d"

/-- The text of the answer. -/
def answerText : Bytes := ascii ("\x7b\"cid\":\"" ++ rootOfX.hexText ++
  "\",\"count\":1,\"peers\":[\x7b\"peer\":\"QmSeed\",\"addrs\":[" ++
  "\"/ip4/10.0.0.1/udp/4001/quic-v1/p2p/QmSeed\"],\"ts\":1000\x7d]\x7d")

@[reducible] def jsOfSeed : Js where
  parse s := if s = utf16 announcedText then some (Json.toJs announcedOfX) else none
  text
    | .string s => some s
    | _ => none
  falsy _ := false

@[reducible] def wireOfSeed : Wire where
  serialize _ := utf16 announcedText
  stringify _ := answerText
  fromSlice body :=
    if body = answerText then some [⟨"QmSeed", [addrOfSeed ++ "/p2p/QmSeed"], none⟩] else none

def requestOfSeed : Request := @trackerAnnounce _ _ onePeer wireOfSeed rootOfX () [addrOfSeed]

/-- The seed announces itself, and its announcement is lost with the process; it does so again two
minutes later, and a stranger sends something else. -/
def eventsOfSeed : List Event :=
  [.start, .request (-119000) requestOfSeed, .request (-60000) .unparsable, .start,
    .request 1000 requestOfSeed, .request 2000 (.announce true (some (utf16 "x")))]

/-- What is handled since the tracker was started again. -/
def handledOfSeed : List (Int × Request) :=
  [(1000, requestOfSeed), (2000, .announce true (some (utf16 "x")))]

def answerOfSeed : List PeerRecord :=
  [⟨utf16 "QmSeed", [utf16 (addrOfSeed ++ "/p2p/QmSeed")], 1000⟩]

/-- When the announcements are handled: of the first nothing is left. -/
def arrivedOfSeed : Nat → Option Int
  | 0 => none
  | i + 1 => some (tick (-120000) (i + 1) + 1000)

theorem announcing_seed : @Announcing _ _ onePeer _ jsOfSeed wireOfSeed rootOfX () (-120000) 5000
    (fun _ => [addrOfSeed]) (fun _ => [addrOfSeed]) arrivedOfSeed handledOfSeed := by
  let _ := onePeer
  let _ := jsOfSeed
  let _ := wireOfSeed
  refine ⟨?_, ?_, ?_, fun _ _ _ => .inl (List.cons_ne_nil _ _), fun _ => if_pos rfl, ?_⟩
  · exact List.pairwise_pair.mpr (by decide)
  · intro i t ht
    cases i with
    | zero => cases ht
    | succ i =>
      obtain rfl := Option.some.inj ht
      unfold TRACKER_TIMEOUT
      omega
  · intro i t ht hle
    cases i with
    | zero => cases ht
    | succ i =>
      obtain rfl := Option.some.inj ht
      unfold tick ANNOUNCE_INTERVAL at hle
      obtain rfl : i = 0 := by omega
      exact List.mem_cons_self
  · intro e he hsome
    rcases List.mem_pair.mp he with rfl | rfl
    · exact ⟨0, rfl⟩
    · have hnone : (announces (utf16 rootOfX.hexText) (utf16 (peerText String ()))
          (2000, .announce true (some (utf16 "x")))).isSome = false := by decide +kernel
      rw [hnone] at hsome
      cases hsome

end Tracker

end Np2ptp
