import Np2ptp.Net.Protocol
import Np2ptp.Store.Handle

/-!
# Downloading chunk by chunk

`download_multi_with_progress` as a machine that takes one answer of a provider at a time. First
the manifest is asked of one provider after another; then up to `PARALLEL` missing chunks are in
flight, each on its way round the providers, and any of them may be answered next. That a future of
the stream ends and that the loop takes its result are one step: the loop polls the stream, and
nothing else of the download runs between the two.
-/

namespace Np2ptp

open Lib

/-- `PARALLEL`. -/
def PARALLEL : Nat := 16

/-- A future of the stream: a missing chunk that providers are asked for in turn. -/
structure Fetch where
  slot : Nat
  index : Nat
  hash : Hash
  /-- How many providers have answered. -/
  k : Nat
  lastErr : NetError
  deriving DecidableEq

/-- The provider that a fetch waits for: round robin from its slot on. -/
def Fetch.provider {Peer : Type} (providers : List Peer) (f : Fetch) : Option Peer :=
  providers[(f.slot + f.k) % providers.length]?

/-- The fetch after a provider has failed it: it asks the next one, or fails itself. -/
def Fetch.failed (n : Nat) (f : Fetch) (e : NetError) : Fetch ⊕ Except NetError Bytes :=
  if f.k + 1 < n then .inl { f with k := f.k + 1, lastErr := e } else .inr (.error e)

section

variable [Blake3]

/-- One turn of the loop of a future over `n` providers: the fetch goes on, or ends with the chunk
or an error. -/
def Fetch.answer (m : Manifest) (n : Nat) (f : Fetch) (a : Answer) :
    Fetch ⊕ Except NetError Bytes :=
  match fetchChunk a with
  | .ok (some bytes) =>
    if m.chunkHashOk f.index bytes then .inr (.ok bytes) else f.failed n .badChunk
  | .ok none => f.failed n (.missingChunk f.hash)
  | .error e => f.failed n e

end

/-- What `download_multi` keeps while chunks are in flight. -/
structure Fetching (Peer : Type) where
  manifest : Manifest
  /-- The futures that the stream has not begun. -/
  waiting : List Fetch
  inFlight : List Fetch
  done : Nat
  /-- A `u64` for each peer; no download takes `2 ^ 64` bytes from one. -/
  fetchedBytes : HashMap Peer Nat
  firstFailure : Option NetError

/-- How far the download is. -/
inductive Phase (Peer : Type) where
  /-- The first of these providers is asked for the manifest. -/
  | manifest (providers : List Peer)
  | fetching (f : Fetching Peer)
  /-- What is returned, and the bytes each peer is sent a receipt for if there are any. -/
  | returned (result : Except NetError Manifest) (receipts : HashMap Peer Nat)

/-- A download and the local store it writes to. -/
structure Download (Peer : Type) where
  disk : Disk
  store : Store
  /-- The calls of `on_progress` so far. -/
  progress : List (Nat × Nat)
  phase : Phase Peer

/-- What the call has returned. -/
def Download.result {Peer : Type} (st : Download Peer) : Option (Except NetError Manifest) :=
  match st.phase with
  | .returned result _ => some result
  | _ => none

/-- An answer to a request of the download. -/
inductive Answered where
  | manifest (a : Answer)
  /-- The answer that the fetch in this slot waits for. -/
  | chunk (slot : Nat) (a : Answer)

/-- The listed chunks from the index `i` on that the store does not have. -/
def Store.missing (d : Disk) : Store → Nat → List ChunkRef → List (Nat × Hash) × Store
  | s, _, [] => ([], s)
  | s, i, c :: chunks =>
    let (held, s) := s.has d c.hash
    let (rest, s) := Store.missing d s (i + 1) chunks
    (if held then rest else (i, c.hash) :: rest, s)

/-- The futures for some missing chunks, numbered in order. -/
def fetchesOf (missing : List (Nat × Hash)) : List Fetch :=
  missing.mapIdx fun slot (i, hash) => ⟨slot, i, hash, 0, .missingChunk hash⟩

/-- `buffer_unordered` begins futures while there is room. -/
def Fetching.refill {Peer : Type} (f : Fetching Peer) : Fetching Peer :=
  let room := PARALLEL - f.inFlight.length
  { f with inFlight := f.inFlight ++ f.waiting.take room, waiting := f.waiting.drop room }

/-- The loop polls the stream again: it waits for what is in flight, or is over. -/
def Fetching.poll {Peer : Type} (f : Fetching Peer) : Phase Peer :=
  let f := f.refill
  if f.inFlight = [] then
    match f.firstFailure with
    | some e => .returned (.error e) f.fetchedBytes
    | none => .returned (.ok f.manifest) f.fetchedBytes
  else .fetching f

/-- The manifest is there: the missing chunks are fetched. -/
def Download.begin {Peer : Type} (st : Download Peer) (m : Manifest) : Download Peer :=
  let (missing, s) := Store.missing st.disk st.store 0 m.chunks
  let total := m.chunks.length
  let done := total - missing.length
  { st with
    store := s
    progress := st.progress ++ [(done, total)]
    phase := Fetching.poll ⟨m, fetchesOf missing, [], done, ∅, none⟩ }

/-- `download_multi_with_progress` is called. -/
def Download.start {Peer : Type} (providers : List Peer) (d : Disk) (s : Store) : Download Peer :=
  ⟨d, s, [], if providers = [] then .returned (.error .noProviders) ∅ else .manifest providers⟩

section

variable [Blake3] {Peer : Type} [DecidableEq Peer]

/-- `*fetched_bytes.entry(from).or_insert(0) += bytes.len() as u64`. -/
def credit (fetchedBytes : HashMap Peer Nat) (peer : Option Peer) (bytes : Bytes) :
    HashMap Peer Nat :=
  match peer with
  | none => fetchedBytes
  | some p => fetchedBytes.insert p ((fetchedBytes.lookup p).getD 0 + bytes.length)

/-- The body of the loop: a future has ended. -/
def Download.take (st : Download Peer) (f : Fetching Peer) (peer : Option Peer) :
    Except NetError Bytes → Download Peer
  | .error e => { st with
      phase := Fetching.poll { f with firstFailure := f.firstFailure.or (some e) } }
  | .ok bytes =>
    let f := { f with fetchedBytes := credit f.fetchedBytes peer bytes }
    match st.store.put st.disk bytes with
    | (.error e, d, s) => ⟨d, s, st.progress, .returned (.error (.store e)) ∅⟩
    | (.ok _, d, s) =>
      let f := { f with done := f.done + 1 }
      ⟨d, s, st.progress ++ [(f.done, f.manifest.chunks.length)], f.poll⟩

/-- The download gets an answer. -/
def Download.step (root : Hash) (providers : List Peer) (st : Download Peer) :
    Answered → Option (Download Peer)
  | .manifest a =>
    match st.phase with
    | .manifest (_ :: rest) =>
      match getManifest root a with
      | .ok m => some (st.begin m)
      | .error e => some { st with
          phase := if rest = [] then .returned (.error e) ∅ else .manifest rest }
    | _ => none
  | .chunk slot a =>
    match st.phase with
    | .fetching f =>
      match f.inFlight.find? fun t => decide (t.slot = slot) with
      | none => none
      | some t =>
        match t.answer f.manifest providers.length a with
        | .inl t' => some { st with phase := .fetching { f with
            inFlight := f.inFlight.map fun u => if u.slot = slot then t' else u } }
        | .inr r =>
          let f := { f with inFlight := f.inFlight.filter fun u => decide (u.slot ≠ slot) }
          some (st.take f (t.provider providers) r)
    | _ => none

end

end Np2ptp
