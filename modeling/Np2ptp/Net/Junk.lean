import Np2ptp.Net.Swarm

/-!
# What a chunk earns

The event loop credits a peer for every chunk that it sends, when the response arrives. Whether the
bytes are the chunk that was asked for is found out afterwards, by the task that asked
(`Manifest.chunkHashOk_iff_genuine`), and nothing is taken back. So a peer earns no more than it
gave if and only if everything it sends is what was asked for (`junk_earns_nothing_iff`).
-/

namespace Np2ptp

open Lib

/-- A node with its requests in flight, and what the callers have asked for in each. -/
structure Asking (Peer : Type) [Ed25519] where
  swarm : Swarm Peer
  asked : HashMap Nat Net.Request

section

variable [Blake3] [Ed25519] [RaptorQ] {Peer : Type} [DecidableEq Peer]

/-- The requests that were asked, after an event that may be the command to send one. -/
def Asking.noted (w : Asking Peer) : NodeEvent Peer → HashMap Nat Net.Request
  | .sendRequest _ request => w.asked.insert w.swarm.node.nextRequest request
  | _ => w.asked

/-- One event. -/
def Asking.step (w : Asking Peer) (ev : NodeEvent Peer) : Option (Asking Peer) :=
  (w.swarm.step ev).map fun swarm => ⟨swarm, w.noted ev⟩

/-- The bytes hash to the chunk hash that the request asked for. -/
def Asking.Genuine (w : Asking Peer) (id : Nat) (data : Bytes) : Prop :=
  w.asked.lookup id = some (.chunk (Hash.of data))

instance (w : Asking Peer) (id : Nat) (data : Bytes) : Decidable (w.Genuine id data) :=
  inferInstanceAs (Decidable (_ = _))

/-- The bytes that an event brings from the peer as the chunk that was asked for. -/
def Asking.verified (p : Peer) (w : Asking Peer) : NodeEvent Peer → Nat
  | .response q id (.chunk (some data)) => if q = p ∧ w.Genuine id data then data.length else 0
  | _ => 0

/-- The bytes that an event brings from the peer in place of what was asked for. -/
def Asking.junk (p : Peer) (w : Asking Peer) : NodeEvent Peer → Nat
  | .response q id (.chunk (some data)) => if q = p ∧ ¬ w.Genuine id data then data.length else 0
  | _ => 0

/-- A chunk that the peer sends is empty or the one that was asked for. -/
def Asking.NoJunk (p : Peer) (w : Asking Peer) : NodeEvent Peer → Prop
  | .response q id (.chunk (some data)) => q = p → data ≠ [] → w.Genuine id data
  | _ => True

omit [RaptorQ] [DecidableEq Peer] in
/-- What the download task takes: where the chunk of an index was asked for, its check passes the
bytes if and only if they are genuine. -/
theorem Manifest.chunkHashOk_iff_genuine {w : Asking Peer} {m : Manifest} {i id : Nat}
    {cref : ChunkRef} (hc : m.chunks[i]? = some cref)
    (hasked : w.asked.lookup id = some (.chunk cref.hash)) (data : Bytes) :
    m.chunkHashOk i data = true ↔ w.Genuine id data := by
  rw [Manifest.chunkHashOk, hc, Asking.Genuine, hasked]
  dsimp only
  rw [beq_iff_eq, Option.some.injEq, Net.Request.chunk.injEq]
  exact eq_comm

omit [RaptorQ] in
/-- What is credited is the genuine and the rest alike. -/
theorem Asking.taken_eq (p : Peer) (w : Asking Peer) (ev : NodeEvent Peer) :
    w.swarm.node.taken p ev = w.verified p ev + w.junk p ev := by
  unfold EventLoop.taken Asking.verified Asking.junk
  cases ev with
  | response q id response =>
    cases response with
    | chunk data =>
      cases data with
      | none => rfl
      | some data =>
        dsimp only
        by_cases hq : q = p
        · by_cases hgenuine : w.Genuine id data
          · simp [hq, hgenuine]
          · simp [hq, hgenuine]
        · simp [hq]
    | _ => rfl
  | _ => rfl

omit [RaptorQ] in
theorem Asking.noJunk_iff {p : Peer} {w : Asking Peer} {ev : NodeEvent Peer} :
    w.NoJunk p ev ↔ w.junk p ev = 0 := by
  unfold Asking.NoJunk Asking.junk
  split
  · next q id data =>
    rw [ite_eq_right_iff, List.length_eq_zero_iff]
    constructor
    · rintro h ⟨hq, hno⟩
      by_contra hne
      exact hno (h hq hne)
    · intro h hq hne
      by_contra hno
      exact hne (h ⟨hq, hno⟩)
  · exact ⟨fun _ => rfl, fun _ => trivial⟩

variable {w w' : Asking Peer} {events : List (NodeEvent Peer)}

/-- An event adds to the counter of a peer what it was credited, genuine or not. -/
theorem Asking.step_counters (p : Peer) {ev : NodeEvent Peer} (h : w.step ev = some w') :
    (w'.swarm.node.ledger.counters p).servedToUs.toNat =
      min ((w.swarm.node.ledger.counters p).servedToUs.toNat + (w.verified p ev + w.junk p ev))
        (2 ^ 64 - 1) := by
  obtain ⟨swarm, hswarm, rfl⟩ := Option.map_eq_some_iff.mp h
  rw [EventLoop.step_counters p _ ev _ (Swarm.step_node hswarm), ← Asking.taken_eq]
  exact toNat_saturatingAdd _ _

/-- A run adds up what its events do. -/
theorem Asking.runs_counters (p : Peer) (hrun : runs Asking.step w events = some w') :
    (w'.swarm.node.ledger.counters p).servedToUs.toNat =
      min ((w.swarm.node.ledger.counters p).servedToUs.toNat +
        (total Asking.step (Asking.verified p) w events +
          total Asking.step (Asking.junk p) w events)) (2 ^ 64 - 1) := by
  rw [← total_add]
  exact runs_total (fun w : Asking Peer => (w.swarm.node.ledger.counters p).servedToUs.toNat)
    (fun _ _ _ h => Asking.step_counters p h)
    (Nat.le_sub_one_of_lt (UInt64.toNat_lt _)) hrun

/-- Junk earns nothing if and only if there is none, or the genuine chunks have filled the counter:
in every run of a node, from whatever ledger, what a peer is credited for is at most what it was
credited for at the start and the total length of the chunks that it sent as they were asked for,
exactly if it sent no other bytes or the counter is full without them. -/
theorem junk_earns_nothing_iff (p : Peer) (hrun : runs Asking.step w events = some w') :
    (w'.swarm.node.ledger.counters p).servedToUs.toNat ≤
        (w.swarm.node.ledger.counters p).servedToUs.toNat +
          total Asking.step (Asking.verified p) w events ↔
      Along Asking.step (Asking.NoJunk p) w events ∨
        2 ^ 64 - 1 ≤ (w.swarm.node.ledger.counters p).servedToUs.toNat +
          total Asking.step (Asking.verified p) w events := by
  have hjunk : Along Asking.step (Asking.NoJunk p) w events ↔
      total Asking.step (Asking.junk p) w events = 0 := by
    rw [total_eq_zero_iff]
    exact ⟨fun h => h.mono fun _ _ => Asking.noJunk_iff.mp,
      fun h => h.mono fun _ _ => Asking.noJunk_iff.mpr⟩
  have hcount := Asking.runs_counters p hrun
  rw [hjunk]
  omega

end

/-- A node that has asked for nothing yet. -/
def askingOfX : @Asking Unit noSignatures :=
  let _ := noSignatures
  ⟨⟨nodeOfX, ∅⟩, ∅⟩

/-- The chunk `x` is asked for, and something comes. -/
def answeredWith (data : Bytes) : List (NodeEvent Unit) :=
  [.sendRequest () (.chunk digestOfX), .response () 0 (.chunk (some data))]

/-- The chunk `x` earns its one byte. -/
theorem genuine_earns_one :
    let _ := blake3OfX
    let _ := noSignatures
    let _ := oneSymbolCode
    ∃ w', runs Asking.step askingOfX (answeredWith [120]) = some w' ∧
      (w'.swarm.node.ledger.counters ()).servedToUs.toNat ≤
        total Asking.step (Asking.verified ()) askingOfX (answeredWith [120]) := by
  have hno : total (@Asking.step blake3OfX noSignatures oneSymbolCode Unit _)
      (@Asking.junk blake3OfX noSignatures Unit _ ()) askingOfX (answeredWith [120]) = 0 := by
    decide +kernel
  intro _ _ _
  have hrun : ∃ w', runs Asking.step askingOfX (answeredWith [120]) = some w' := ⟨_, rfl⟩
  obtain ⟨w', hrun⟩ := hrun
  have halong : Along Asking.step (Asking.NoJunk ()) askingOfX (answeredWith [120]) :=
    (total_eq_zero_iff.mp hno).mono fun _ _ => Asking.noJunk_iff.mpr
  have hle := (junk_earns_nothing_iff () hrun).mpr (.inl halong)
  rw [show (askingOfX.swarm.node.ledger.counters ()).servedToUs.toNat = 0 from rfl,
    Nat.zero_add] at hle
  exact ⟨w', hrun, hle⟩

/-- Junk earns as much as a chunk: the byte `y` in place of `x`. -/
theorem junk_earns_one :
    let _ := blake3OfX
    let _ := noSignatures
    let _ := oneSymbolCode
    (runs Asking.step askingOfX (answeredWith [121])).map (fun w =>
        ((w.swarm.node.ledger.counters ()).servedToUs.toNat,
          total Asking.step (Asking.verified ()) askingOfX (answeredWith [121]))) =
      some (1, 0) := by
  decide +kernel

end Np2ptp
