import Np2ptp.Lib.Bincode

/-!
# Identities and receipts

`np2ptp-rep/src/identity.rs` and `receipt.rs`. A receipt says that its client got some bytes from
its server, and is signed by the client over a canonical byte string. The signature scheme is the
`ed25519-dalek` crate's and stays a parameter.
-/

namespace Np2ptp

open Lib

/-- `np2ptp_rep::PeerId`: a verifying key. -/
structure RepPeerId where
  bytes : Bytes
  length_eq : bytes.length = 32

theorem RepPeerId.bytes_inj {a b : RepPeerId} : a.bytes = b.bytes ↔ a = b := by
  cases a
  cases b
  simp

instance : DecidableEq RepPeerId := fun _ _ => decidable_of_iff _ RepPeerId.bytes_inj

/-- The `ed25519-dalek` crate. -/
class Ed25519 where
  SigningKey : Type
  verifyingKey : SigningKey → RepPeerId
  sign : SigningKey → Bytes → Bytes
  /-- The key and the signature decode, and `verify_strict` accepts. -/
  verifyStrict : RepPeerId → Bytes → Bytes → Bool

/-- `RECEIPT_TAG`. -/
def RECEIPT_TAG : Bytes := ascii "np2ptp-receipt-v1"

/-- `Receipt`. -/
structure Receipt where
  server : RepPeerId
  client : RepPeerId
  bytes : UInt64
  epoch : UInt64
  sig : Bytes
  deriving DecidableEq

/-- `Receipt::canonical`. -/
def Receipt.canonical (server client : RepPeerId) (bytes epoch : UInt64) : Bytes :=
  RECEIPT_TAG ++ server.bytes ++ client.bytes ++ Codec.leBytes 8 bytes.toNat ++
    Codec.leBytes 8 epoch.toNat

section

variable [Ed25519]

/-- `PeerId::verify`: a signature has 64 bytes. -/
def RepPeerId.verify (p : RepPeerId) (msg sig : Bytes) : Bool :=
  if sig.length = 64 then Ed25519.verifyStrict p msg sig else false

/-- `Receipt::issue`. -/
def Receipt.issue (client : Ed25519.SigningKey) (server : RepPeerId) (bytes epoch : UInt64) :
    Receipt :=
  let clientId := Ed25519.verifyingKey client
  { server := server
    client := clientId
    bytes := bytes
    epoch := epoch
    sig := Ed25519.sign client (Receipt.canonical server clientId bytes epoch) }

/-- `Receipt::verify`. -/
def Receipt.verify (r : Receipt) : Bool :=
  r.client.verify (Receipt.canonical r.server r.client r.bytes r.epoch) r.sig

end

theorem length_replicate_key (b : UInt8) : (List.replicate 32 b).length = 32 :=
  List.length_replicate

/-- The key of 32 equal bytes, for runs on fixed inputs. -/
def RepPeerId.ofByte (b : UInt8) : RepPeerId := ⟨List.replicate 32 b, length_replicate_key b⟩

/-- Signatures for runs on fixed inputs in which none is checked. -/
abbrev noSignatures : Ed25519 where
  SigningKey := RepPeerId
  verifyingKey := id
  sign _ _ := []
  verifyStrict _ _ _ := false

/-- Signatures for runs on fixed inputs: a key signs everything with its own bytes, and what it
signed verifies under it. -/
abbrev ownSignatures : Ed25519 where
  SigningKey := RepPeerId
  verifyingKey := id
  sign key _ := key.bytes ++ key.bytes
  verifyStrict p _ sig := decide (sig = p.bytes ++ p.bytes)

end Np2ptp
