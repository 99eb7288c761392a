import Np2ptp.Lib.LineLog

/-!
# The contribution ledger

`np2ptp-rep/src/ledger.rs`: what each peer has given and taken, in saturating 64-bit counters, and
the reputation made of them. The file a ledger is kept in is left out.
-/

namespace Np2ptp

open Lib

/-- `u64::saturating_add` of a number that is itself below the bound of the type. -/
def saturatingAdd (a : UInt64) (n : Nat) : UInt64 := UInt64.ofNat (min (a.toNat + n) (2 ^ 64 - 1))

@[simp] theorem toNat_saturatingAdd (a : UInt64) (n : Nat) :
    (saturatingAdd a n).toNat = min (a.toNat + n) (2 ^ 64 - 1) :=
  UInt64.toNat_ofNat_of_lt' (by show _ < 2 ^ 64; omega)

@[simp] theorem saturatingAdd_zero (a : UInt64) : saturatingAdd a 0 = a := by
  have hlt := a.toNat_lt
  rw [← UInt64.toNat_inj, toNat_saturatingAdd]
  omega

/-- Amounts added one after the other are added together. -/
@[simp] theorem saturatingAdd_saturatingAdd (a : UInt64) (m n : Nat) :
    saturatingAdd (saturatingAdd a m) n = saturatingAdd a (m + n) := by
  rw [← UInt64.toNat_inj, toNat_saturatingAdd, toNat_saturatingAdd, toNat_saturatingAdd]
  omega

/-- `i64::saturating_neg`. -/
def saturatingNeg (n : Int64) : Int := min (-n.toInt) (2 ^ 63 - 1)

/-- `Counters`. -/
structure Counters where
  servedToUs : UInt64
  weServed : UInt64
  creditedByReceipts : UInt64
  deriving DecidableEq

/-- `Counters::default`. -/
def Counters.default : Counters := ⟨0, 0, 0⟩

/-- What the peer has given beyond what it took. -/
def Counters.net (c : Counters) : Int :=
  (c.servedToUs.toNat : Int) + c.creditedByReceipts.toNat - c.weServed.toNat

/-- `Ledger`. -/
structure Ledger (K : Type) where
  peers : HashMap K Counters

variable {K : Type} [DecidableEq K]

/-- `Ledger::counters`. -/
def Ledger.counters (l : Ledger K) (peer : K) : Counters := (l.peers.lookup peer).getD .default

/-- `*self.peers.entry(peer).or_default()` is changed. -/
def Ledger.update (l : Ledger K) (peer : K) (f : Counters → Counters) : Ledger K :=
  ⟨l.peers.insert peer (f (l.counters peer))⟩

/-- `Ledger::record_received`. -/
def Ledger.recordReceived (l : Ledger K) (peer : K) (bytes : Nat) : Ledger K :=
  l.update peer fun c => { c with servedToUs := saturatingAdd c.servedToUs bytes }

/-- `Ledger::record_served`. -/
def Ledger.recordServed (l : Ledger K) (peer : K) (bytes : Nat) : Ledger K :=
  l.update peer fun c => { c with weServed := saturatingAdd c.weServed bytes }

/-- `Ledger::credit_receipt`. -/
def Ledger.creditReceipt (l : Ledger K) (peer : K) (bytes : UInt64) : Ledger K :=
  l.update peer fun c =>
    { c with creditedByReceipts := saturatingAdd c.creditedByReceipts bytes.toNat }

/-- `Ledger::reputation`: the net contribution, clamped to an `i64`. -/
def Ledger.reputation (l : Ledger K) (peer : K) : Int :=
  max (-2 ^ 63) (min (l.counters peer).net (2 ^ 63 - 1))

@[simp] theorem Ledger.counters_update (l : Ledger K) (peer : K) (f : Counters → Counters) :
    (l.update peer f).counters peer = f (l.counters peer) := by
  simp [Ledger.update, Ledger.counters]

@[simp] theorem Ledger.counters_update_of_ne (l : Ledger K) {peer other : K}
    (f : Counters → Counters) (h : other ≠ peer) :
    (l.update peer f).counters other = l.counters other := by
  simp [Ledger.update, Ledger.counters, Finmap.lookup_insert_of_ne _ h]

/-- A reputation that is not the least one is at most the net contribution. -/
theorem Ledger.le_net_of_le_reputation {l : Ledger K} {peer : K} {n : Int} (hn : -2 ^ 63 < n)
    (h : n ≤ l.reputation peer) : n ≤ (l.counters peer).net := by
  unfold Ledger.reputation at h
  omega

end Np2ptp
