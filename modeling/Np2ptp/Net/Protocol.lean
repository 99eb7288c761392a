import Np2ptp.Core.Nptp
import Np2ptp.Rep.Receipt
import Np2ptp.Store.Layout

/-!
# The content protocol

`np2ptp-net/src/lib.rs`: the messages of the request-response protocol and what a client makes of
one answer. An answer is what `Network::request` returns, a response of any kind or an error; a
provider chooses it freely, so nothing but the checks here stands between it and the download.
-/

namespace Np2ptp

open Lib

/-- `NetError`, the variants that downloads return. -/
inductive NetError where
  | shutdown
  | store (e : StoreError)
  | requestFailed
  | noManifest
  | badManifest
  | missingChunk (h : Hash)
  | badChunk
  | noProviders
  deriving DecidableEq

/-- `Request`. -/
inductive Net.Request where
  | manifest (root : Hash)
  | chunk (hash : Hash)
  | symbol (root : Hash) (index : UInt32)
  | symbols (root : Hash) (start count : UInt32)
  | submitReceipt (receipt : Receipt)
  | getReceipts
  deriving DecidableEq

/-- `Response`. -/
inductive Net.Response where
  | manifest (bytes : Option Bytes)
  | chunk (data : Option Bytes)
  | symbol (data : Option Bytes)
  | symbols (data : List Bytes)
  | receiptAck
  | receipts (receipts : List Receipt)
  deriving DecidableEq

/-- `FEC_REPAIR_SYMBOLS`. -/
def FEC_REPAIR_SYMBOLS : Nat := 64

/-- `FEC_BATCH`. -/
def FEC_BATCH : UInt32 := 128

/-- `MAX_SYMBOLS_PER_BATCH`. -/
def MAX_SYMBOLS_PER_BATCH : UInt32 := 256

/-- What `Network::request` returns. -/
abbrev Answer := Except NetError Net.Response

section

variable [Blake3]

/-- The checks of `get_manifest` on a manifest that parsed: it has the root asked for, its chunk
list makes up that root, and its file table lines up with the list. -/
def Manifest.Vetted (root : Hash) (m : Manifest) : Prop :=
  m.root = root ∧ m.rootIsConsistent = true ∧ m.validate = .ok ()

/-- `Network::get_manifest`, given the provider's answer. -/
def getManifest (root : Hash) : Answer → Except NetError Manifest
  | .error e => .error e
  | .ok (.manifest (some bytes)) =>
    match Manifest.fromNptp bytes with
    | .error _ => .error .badManifest
    | .ok m =>
      if m.root ≠ root ∨ m.rootIsConsistent = false then .error .badManifest
      else
        match m.validate with
        | .error _ => .error .badManifest
        | .ok () => .ok m
  | .ok (.manifest none) => .error .noManifest
  | .ok _ => .error .requestFailed

/-- What `get_manifest` returns has passed all its checks, whatever the provider sent. -/
theorem vetted_of_getManifest {root : Hash} {answer : Answer} {m : Manifest}
    (h : getManifest root answer = .ok m) : m.Vetted root := by
  unfold getManifest at h
  split at h
  · cases h
  · split at h
    · cases h
    · split at h
      · cases h
      · next hroot =>
        split at h
        · cases h
        · next hv =>
          cases h
          simp only [not_or, not_not, Bool.not_eq_false] at hroot
          exact ⟨hroot.1, hroot.2, hv⟩
  · cases h
  · cases h

/-- A manifest that passes the checks is returned when its container is sent. -/
theorem getManifest_of_vetted {root : Hash} {bytes : Bytes} {m : Manifest}
    (hparse : Manifest.fromNptp bytes = .ok m) (h : m.Vetted root) :
    getManifest root (.ok (.manifest (some bytes))) = .ok m := by
  obtain ⟨hroot, hcons, hval⟩ := h
  simp only [getManifest, hparse, hval]
  exact if_neg (by simp [hroot, hcons])

end

/-- `Network::fetch_chunk`, given the provider's answer. -/
def fetchChunk : Answer → Except NetError (Option Bytes)
  | .error e => .error e
  | .ok (.chunk data) => .ok data
  | .ok _ => .error .requestFailed

/-- `Network::fetch_symbols`, given the provider's answer. -/
def fetchSymbols : Answer → Except NetError (List Bytes)
  | .error e => .error e
  | .ok (.symbols data) => .ok data
  | .ok _ => .error .requestFailed

end Np2ptp
