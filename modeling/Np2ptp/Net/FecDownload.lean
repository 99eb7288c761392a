import Np2ptp.Fec.RaptorQ
import Np2ptp.Net.Protocol
import Np2ptp.Store.Ingest

/-!
# Downloading from symbols

`download_fec_with_progress` as a machine that takes one answer of its provider at a time: the
manifest, then batches of symbols until the content decodes. One turn of the loop is a function of
what the loop keeps and the batch that arrived (`FecLoop.turn`). `FecDownload.exchange` closes the
machine with a provider that answers every request by a function of it.
-/

namespace Np2ptp

open Lib

/-- `MAX_FEC_TRANSFER_SIZE`. -/
def MAX_FEC_TRANSFER_SIZE : Nat := 32 * 1024 * 1024 * 1024

/-- `MAX_DECODE_ATTEMPTS`. -/
def MAX_DECODE_ATTEMPTS : Nat := 16

/-- What the loop of `download_fec` keeps. -/
structure FecLoop where
  manifest : Manifest
  config : Bytes
  need : Nat
  symbols : List Bytes
  start : UInt32
  fetchedBytes : Nat
  lastAttemptLen : Nat
  attempts : Nat

/-- How a turn of the loop ends. -/
inductive FecTurn where
  | again (l : FecLoop)
  | decoded (l : FecLoop) (data : Bytes)
  | failed (e : NetError)

/-- How far the download is. -/
inductive FecPhase where
  | manifest
  | symbols (l : FecLoop)
  /-- What is returned, and the bytes the provider is sent a receipt for if there are any. -/
  | returned (result : Except NetError Manifest) (receipt : Nat)

/-- A download and the local store it writes to. -/
structure FecDownload where
  disk : Disk
  store : Store
  phase : FecPhase

/-- `u32::saturating_add`. -/
def saturatingAdd32 (a b : UInt32) : UInt32 := UInt32.ofNat (min (a.toNat + b.toNat) (2 ^ 32 - 1))

/-- The front of a turn: the batch is counted and kept. -/
def FecLoop.take (l : FecLoop) (batch : List Bytes) : FecLoop :=
  { l with
    start := saturatingAdd32 l.start (UInt32.ofNat batch.length)
    fetchedBytes := satAdd l.fetchedBytes (batch.map List.length).sum
    symbols := l.symbols ++ batch }

/-- The end of a turn that made no content: whether there is another. -/
def FecLoop.next (root : Hash) (exhausted : Bool) (l : FecLoop) : FecTurn :=
  if exhausted then .failed (.missingChunk root)
  else if MAX_DECODE_ATTEMPTS ≤ l.attempts then .failed .badChunk
  else .again l

section

variable [RaptorQ]

/-- One turn of the loop. -/
def FecLoop.turn (root : Hash) (l : FecLoop) (batch : List Bytes) : FecTurn :=
  let exhausted := batch.isEmpty
  let l := l.take batch
  let size := l.manifest.totalSize.toNat
  if min (size * 2) (2 ^ 64 - 1) < l.fetchedBytes then .failed .badChunk
  else if l.need ≤ l.symbols.length ∨ exhausted then
    if max (l.need / 4) 1 ≤ l.symbols.length - l.lastAttemptLen ∨ exhausted then
      let l := { l with lastAttemptLen := l.symbols.length, attempts := l.attempts + 1 }
      match Fec.decode l.config size l.symbols with
      | some data => .decoded l data
      | none => l.next root exhausted
    else l.next root exhausted
  else .again l

/-- The loop as it begins. -/
def FecLoop.begin (m : Manifest) : FecLoop :=
  { manifest := m
    config := Fec.configFor m.totalSize.toNat DEFAULT_SYMBOL_SIZE
    need := max (divCeil m.totalSize.toNat DEFAULT_SYMBOL_SIZE) 1
    symbols := []
    start := 0
    fetchedBytes := 0
    lastAttemptLen := 0
    attempts := 0 }

variable [Blake3] [FastCDC]

/-- The end of `download_fec`: the decoded stream must reproduce the content id, and is stored. -/
def FecDownload.finish (root : Hash) (st : FecDownload) (l : FecLoop) (data : Bytes) :
    FecDownload :=
  match l.manifest.splitStream data with
  | .error _ => { st with phase := .returned (.error .badChunk) 0 }
  | .ok files =>
    if (Manifest.fromFiles files l.manifest.name).root ≠ root then
      { st with phase := .returned (.error .badChunk) 0 }
    else
      match st.store.ingestTree st.disk files l.manifest.name with
      | (.error e, d, s) => ⟨d, s, .returned (.error (.store e)) 0⟩
      | (.ok _, d, s) => ⟨d, s, .returned (.ok l.manifest) l.fetchedBytes⟩

/-- The download gets an answer. -/
def FecDownload.step (root : Hash) (st : FecDownload) (a : Answer) : Option FecDownload :=
  match st.phase with
  | .manifest =>
    match getManifest root a with
    | .error e => some { st with phase := .returned (.error e) 0 }
    | .ok m =>
      if MAX_FEC_TRANSFER_SIZE < m.totalSize.toNat then
        some { st with phase := .returned (.error .badManifest) 0 }
      else some { st with phase := .symbols (.begin m) }
  | .symbols l =>
    match fetchSymbols a with
    | .error e => some { st with phase := .returned (.error e) 0 }
    | .ok batch =>
      match l.turn root batch with
      | .again l => some { st with phase := .symbols l }
      | .decoded l data => some (st.finish root l data)
      | .failed e => some { st with phase := .returned (.error e) 0 }
  | .returned _ _ => none

/-! ## Against a provider -/

/-- `download_fec` is called. -/
def FecDownload.begin (d : Disk) (s : Store) : FecDownload := ⟨d, s, .manifest⟩

/-- The request that the download waits for the answer to. -/
def FecDownload.request (root : Hash) (st : FecDownload) : Option Net.Request :=
  match st.phase with
  | .manifest => some (.manifest root)
  | .symbols l => some (.symbols root l.start FEC_BATCH)
  | .returned _ _ => none

/-- What the call has returned. -/
def FecDownload.result (st : FecDownload) : Option (Except NetError Manifest) :=
  match st.phase with
  | .returned result _ => some result
  | _ => none

/-- One request and its answer. -/
def FecDownload.exchange (root : Hash) (provider : Net.Request → Net.Response)
    (st : FecDownload) : FecDownload :=
  match st.request root with
  | none => st
  | some request => (st.step root (.ok (provider request))).getD st

/-- The call returns this. -/
def FecDownload.Returns (root : Hash) (provider : Net.Request → Net.Response) (st : FecDownload)
    (result : Except NetError Manifest) : Prop :=
  ∃ n, ((FecDownload.exchange root provider)^[n] st).result = some result

/-- A call returns one thing. -/
theorem FecDownload.Returns.unique {root : Hash} {provider : Net.Request → Net.Response}
    {st : FecDownload} {r r' : Except NetError Manifest} (h : st.Returns root provider r)
    (h' : st.Returns root provider r') : r = r' := by
  have hstop : ∀ (st : FecDownload) r, st.result = some r →
      FecDownload.exchange root provider st = st := by
    intro st r hr
    unfold FecDownload.result at hr
    split at hr
    · next hp => rw [FecDownload.exchange, FecDownload.request, hp]
    · cases hr
  have hstay : ∀ (k : Nat) (st : FecDownload) r, st.result = some r →
      ((FecDownload.exchange root provider)^[k] st).result = some r := by
    intro k
    induction k with
    | zero => exact fun _ _ hr => hr
    | succ k ih =>
      intro st r hr
      rw [Function.iterate_succ_apply, hstop st r hr]
      exact ih st r hr
  obtain ⟨n, hn⟩ := h
  obtain ⟨n', hn'⟩ := h'
  rcases Nat.le_total n n' with hle | hle
  · obtain ⟨k, rfl⟩ := Nat.exists_eq_add_of_le' hle
    rw [Function.iterate_add_apply, hstay k _ r hn] at hn'
    exact Option.some.inj hn'
  · obtain ⟨k, rfl⟩ := Nat.exists_eq_add_of_le' hle
    rw [Function.iterate_add_apply, hstay k _ r' hn'] at hn
    exact (Option.some.inj hn).symm

end

end Np2ptp
