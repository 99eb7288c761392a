import Mathlib.Algebra.BigOperators.Group.Multiset.Basic
import Np2ptp.Lib.Runs
import Np2ptp.Lib.TopK
import Np2ptp.Rep.Ledger
import Np2ptp.Rep.Receipt

/-!
# What the books add up to

A counter never passes the bound of its type: what is booked on it in any order is the true sum, or
the bound where the sum is beyond it (`Ledger.accounting`). The peers to unchoke are the first ones
in one linear order, that of reputation and then of the key (`Ledger.rankForUnchoke_best`). A
receipt that `apply_receipt` absorbs is the exception: it is added without regard to the bound
(`Ledger.absorbs_iff`).
-/

namespace Np2ptp

open Lib

/-! ## The counters of a peer -/

/-- The counters that are kept of a peer. -/
inductive Account where
  | servedToUs
  | weServed
  | creditedByReceipts
  deriving DecidableEq

/-- What a counter shows. -/
def Counters.on (c : Counters) : Account → UInt64
  | .servedToUs => c.servedToUs
  | .weServed => c.weServed
  | .creditedByReceipts => c.creditedByReceipts

theorem Counters.ext_on {c d : Counters} (h : ∀ a, c.on a = d.on a) : c = d := by
  cases c
  cases d
  exact congr (congr (congrArg Counters.mk (h .servedToUs)) (h .weServed))
    (h .creditedByReceipts)

/-- A counter that every step adds to shows the sum in the end, or the bound of its type. -/
theorem foldl_saturates {σ α : Type} {step : σ → α → σ} (counter : σ → UInt64)
    {amount : α → Nat} (adds : ∀ s x, counter (step s x) = saturatingAdd (counter s) (amount x))
    (xs : List α)
    (s : σ) : counter (xs.foldl step s) = saturatingAdd (counter s) (xs.map amount).sum := by
  induction xs generalizing s with
  | nil => simp
  | cons x xs ih =>
    rw [List.foldl_cons, ih, adds, saturatingAdd_saturatingAdd, List.map_cons, List.sum_cons]

section

variable {K : Type} [DecidableEq K]

/-! ## Any order of events -/

/-- What is booked on a ledger: some bytes on a counter of a peer. -/
structure LedgerEvent (K : Type) where
  account : Account
  peer : K
  bytes : UInt64

/-- One event is booked. -/
def Ledger.book (l : Ledger K) (ev : LedgerEvent K) : Ledger K :=
  match ev.account with
  | .servedToUs => l.recordReceived ev.peer ev.bytes.toNat
  | .weServed => l.recordServed ev.peer ev.bytes.toNat
  | .creditedByReceipts => l.creditReceipt ev.peer ev.bytes

/-- What an event books on a counter of a peer. -/
def LedgerEvent.amount (p : K) (a : Account) (ev : LedgerEvent K) : Nat :=
  if ev.peer = p ∧ ev.account = a then ev.bytes.toNat else 0

/-- Every event is the same kind of update, of the counters of its peer alone. -/
theorem Ledger.book_eq (ev : LedgerEvent K) : ∃ f : Counters → Counters,
    (∀ l : Ledger K, l.book ev = l.update ev.peer f) ∧
      ∀ c a, (f c).on a = saturatingAdd (c.on a) (ev.amount ev.peer a) := by
  obtain ⟨account, peer, bytes⟩ := ev
  cases account with
  | servedToUs =>
    refine ⟨fun c => { c with servedToUs := saturatingAdd c.servedToUs bytes.toNat },
      fun l => rfl, fun c a => ?_⟩
    cases a <;> simp [Counters.on, LedgerEvent.amount]
  | weServed =>
    refine ⟨fun c => { c with weServed := saturatingAdd c.weServed bytes.toNat },
      fun l => rfl, fun c a => ?_⟩
    cases a <;> simp [Counters.on, LedgerEvent.amount]
  | creditedByReceipts =>
    refine ⟨fun c =>
        { c with creditedByReceipts := saturatingAdd c.creditedByReceipts bytes.toNat },
      fun l => rfl, fun c a => ?_⟩
    cases a <;> simp [Counters.on, LedgerEvent.amount]

theorem Ledger.on_book (l : Ledger K) (ev : LedgerEvent K) (p : K) (a : Account) :
    ((l.book ev).counters p).on a = saturatingAdd ((l.counters p).on a) (ev.amount p a) := by
  obtain ⟨f, hbook, hf⟩ := Ledger.book_eq ev
  rw [hbook]
  by_cases h : p = ev.peer
  · rw [h, Ledger.counters_update, hf]
  · rw [Ledger.counters_update_of_ne l f h, LedgerEvent.amount, if_neg fun h' => h h'.1.symm,
      saturatingAdd_zero]

/-- Two events can be exchanged. -/
theorem Ledger.book_comm (l : Ledger K) (ev ev' : LedgerEvent K) :
    (l.book ev).book ev' = (l.book ev').book ev := by
  obtain ⟨f, hf, hfon⟩ := Ledger.book_eq ev
  obtain ⟨g, hg, hgon⟩ := Ledger.book_eq ev'
  rw [hf, hg, hg, hf]
  by_cases h : ev.peer = ev'.peer
  · have hcomm (c : Counters) : g (f c) = f (g c) := Counters.ext_on fun a => by
      rw [hfon, hgon, hgon, hfon, saturatingAdd_saturatingAdd, saturatingAdd_saturatingAdd,
        Nat.add_comm]
    rw [h]
    simp [Ledger.update, Ledger.counters, hcomm]
  · rw [Ledger.update, Ledger.counters_update_of_ne l f (Ne.symm h),
      Ledger.update.eq_1 (l.update ev'.peer g), Ledger.counters_update_of_ne l g h]
    exact congrArg Ledger.mk (Finmap.insert_insert_of_ne _ h)

/-! ## All the peers -/

/-- The loop body of `totals`. -/
def Counters.plus (total c : Counters) : Counters where
  servedToUs := saturatingAdd total.servedToUs c.servedToUs.toNat
  weServed := saturatingAdd total.weServed c.weServed.toNat
  creditedByReceipts := saturatingAdd total.creditedByReceipts c.creditedByReceipts.toNat

/-- `Ledger::totals`, of a map whose values are visited in this order. -/
def Ledger.totals (values : List Counters) : Counters := values.foldl Counters.plus .default

/-- The values of the map, in any order in which they can be visited. -/
def Ledger.Visits (l : Ledger K) (values : List Counters) : Prop :=
  (values : Multiset Counters) = l.peers.entries.map Sigma.snd

theorem Counters.on_plus (total c : Counters) (a : Account) :
    (total.plus c).on a = saturatingAdd (total.on a) (c.on a).toNat := by
  cases a <;> rfl

/-- The more a peer gave and the less it took, the better its reputation. -/
theorem Ledger.reputation_mono {l l' : Ledger K} {p p' : K}
    (hreceived : (l.counters p).servedToUs ≤ (l'.counters p').servedToUs)
    (hcredited : (l.counters p).creditedByReceipts ≤ (l'.counters p').creditedByReceipts)
    (hserved : (l'.counters p').weServed ≤ (l.counters p).weServed) :
    l.reputation p ≤ l'.reputation p' := by
  rw [UInt64.le_iff_toNat_le] at hreceived hcredited hserved
  unfold Ledger.reputation Counters.net
  omega

/-- The books do not depend on any order. Events booked in any order leave the same ledger, and each
of its counters shows where it started plus all that was booked on it, or the bound of the type; the
totals show the sum over all the peers, or the bound, in whatever order the map is visited; and the
reputation grows with what a peer gave and falls with what it took. -/
theorem Ledger.accounting (l : Ledger K) (events : Multiset (LedgerEvent K)) :
    (∃ l', ∀ order : List (LedgerEvent K), (order : Multiset (LedgerEvent K)) = events →
      order.foldl Ledger.book l = l') ∧
    (∀ order : List (LedgerEvent K), (order : Multiset (LedgerEvent K)) = events → ∀ p a,
      (((order.foldl Ledger.book l).counters p).on a).toNat =
        min (((l.counters p).on a).toNat + (events.map (LedgerEvent.amount p a)).sum)
          (2 ^ 64 - 1)) ∧
    (∀ values, l.Visits values → ∀ a, ((Ledger.totals values).on a).toNat =
      min (l.peers.entries.map fun entry => (entry.2.on a).toNat).sum (2 ^ 64 - 1)) ∧
    ∀ (l' : Ledger K) p p', (l.counters p).servedToUs ≤ (l'.counters p').servedToUs →
      (l.counters p).creditedByReceipts ≤ (l'.counters p').creditedByReceipts →
      (l'.counters p').weServed ≤ (l.counters p).weServed →
      l.reputation p ≤ l'.reputation p' := by
  refine ⟨?_, ?_, ?_, fun l' p p' => Ledger.reputation_mono⟩
  · obtain ⟨order, rfl⟩ := Quotient.exists_rep events
    refine ⟨order.foldl Ledger.book l, fun order' h => ?_⟩
    exact (Multiset.coe_eq_coe.mp h).foldl_eq' (fun a _ b _ l => Ledger.book_comm l a b) l
  · rintro order rfl p a
    rw [foldl_saturates (fun l : Ledger K => (l.counters p).on a) (Ledger.on_book · · p a),
      toNat_saturatingAdd, Multiset.map_coe, Multiset.sum_coe]
  · intro values h a
    have hsum : (values.map fun c => (c.on a).toNat).sum =
        (l.peers.entries.map fun entry => (entry.2.on a).toNat).sum := by
      rw [← Multiset.sum_coe, ← Multiset.map_coe, h, Multiset.map_map]
      rfl
    have hdefault : (Counters.default.on a).toNat = 0 := by cases a <;> rfl
    rw [Ledger.totals, foldl_saturates (Counters.on · a) (Counters.on_plus · · a),
      toNat_saturatingAdd, hsum, hdefault, Nat.zero_add]

end

/-! ## Whom to unchoke -/

section

variable {K : Type} [LinearOrder K]

/-- `sort_by` of `rank_for_unchoke`: `a` does not come after `b`. -/
def Ledger.RanksBefore (l : Ledger K) (a b : K) : Prop :=
  l.reputation b < l.reputation a ∨ l.reputation a = l.reputation b ∧ a ≤ b

instance (l : Ledger K) : DecidableRel l.RanksBefore :=
  fun _ _ => inferInstanceAs (Decidable (_ ∨ _))

/-- `Ledger::rank_for_unchoke`; `sort_by` is stable. -/
def Ledger.rankForUnchoke (l : Ledger K) (candidates : List K) (slots : Nat) : List K :=
  (candidates.insertionSort l.RanksBefore).take slots

instance (l : Ledger K) : Std.Total l.RanksBefore where
  total a b := by
    rcases lt_trichotomy (l.reputation a) (l.reputation b) with h | h | h
    · exact .inr (.inl h)
    · exact (le_total a b).imp (fun hkey => .inr ⟨h, hkey⟩) fun hkey => .inr ⟨h.symm, hkey⟩
    · exact .inl (.inl h)

instance (l : Ledger K) : IsTrans K l.RanksBefore where
  trans a b c := by
    rintro (hab | ⟨hab, hkey⟩) (hbc | ⟨hbc, hkey'⟩)
    · exact .inl (hbc.trans hab)
    · exact .inl (hbc ▸ hab)
    · exact .inl (hab ▸ hbc)
    · exact .inr ⟨hab.trans hbc, hkey.trans hkey'⟩

instance (l : Ledger K) : Std.Antisymm l.RanksBefore where
  antisymm a b := by
    rintro (hab | ⟨hab, hkey⟩) (hba | ⟨hba, hkey'⟩)
    · exact absurd hba hab.not_gt
    · exact absurd hba hab.ne
    · exact absurd hab hba.ne
    · exact le_antisymm hkey hkey'

/-- The best are unchoked: as many as there are slots, in the order of reputation and then of the
key; nobody who is left out ranks strictly before one who is chosen; and the order of the candidates
is no matter. -/
theorem Ledger.rankForUnchoke_best (l : Ledger K) (candidates : List K) (slots : Nat) :
    (l.rankForUnchoke candidates slots).length = min slots candidates.length ∧
    (l.rankForUnchoke candidates slots).Pairwise (fun a b =>
      l.reputation b < l.reputation a ∨ l.reputation a = l.reputation b ∧ a ≤ b) ∧
    (∃ leftOut, (l.rankForUnchoke candidates slots ++ leftOut).Perm candidates ∧
      ∀ a ∈ l.rankForUnchoke candidates slots, ∀ b ∈ leftOut,
        ¬(l.reputation a < l.reputation b ∨ l.reputation b = l.reputation a ∧ b < a)) ∧
    ∀ candidates', candidates'.Perm candidates →
      l.rankForUnchoke candidates' slots = l.rankForUnchoke candidates slots := by
  have hsorted : (topK l.RanksBefore slots candidates).Pairwise l.RanksBefore :=
    pairwise_topK slots candidates
  refine ⟨length_topK slots candidates, hsorted, ?_, ?_⟩
  · refine ⟨_, topK_append_perm slots candidates, fun a ha b hb => ?_⟩
    rcases topK_rel_drop slots candidates ha hb with h | ⟨h, hkey⟩
    · rintro (h' | ⟨h', -⟩)
      · exact h.not_gt h'
      · exact h.ne h'
    · rintro (h' | ⟨-, h'⟩)
      · exact h'.ne h
      · exact h'.not_ge hkey
  · intro candidates' h
    exact topK_perm h

end

/-! ## Absorbing receipts -/

section

variable [Ed25519]

/-- `a += b` on `u64`: where the build checks for overflows a sum that is too large panics, and
elsewhere it wraps. -/
def addAssign (overflowChecks : Bool) (a b : UInt64) : Option UInt64 :=
  if overflowChecks ∧ 2 ^ 64 ≤ a.toNat + b.toNat then none else some (a + b)

/-- `Ledger::apply_receipt`; `none` is a panic. -/
def Ledger.applyReceipt (overflowChecks : Bool) (l : Ledger RepPeerId) (receipt : Receipt) :
    Option (Bool × Ledger RepPeerId) :=
  if !receipt.verify then some (false, l)
  else
    match addAssign overflowChecks (l.counters receipt.server).creditedByReceipts receipt.bytes with
    | none => none
    | some credited =>
      some (true, l.update receipt.server fun c => { c with creditedByReceipts := credited })

/-- One receipt after the other. -/
def Ledger.absorb (overflowChecks : Bool) (l : Ledger RepPeerId) (receipt : Receipt) :
    Option (Ledger RepPeerId) :=
  (l.applyReceipt overflowChecks receipt).map Prod.snd

/-- A receipt is absorbed as `credit_receipt` would: a valid one is credited, so that the server
loses nothing and nobody else is touched, and an invalid one changes nothing. -/
def Ledger.Absorbs (overflowChecks : Bool) (l : Ledger RepPeerId) (receipt : Receipt) : Prop :=
  ∃ l', l.applyReceipt overflowChecks receipt = some (receipt.verify, l') ∧
    (receipt.verify = false → l' = l) ∧
    (receipt.verify = true → l' = l.creditReceipt receipt.server receipt.bytes) ∧
    (l.counters receipt.server).creditedByReceipts ≤
      (l'.counters receipt.server).creditedByReceipts ∧
    l.reputation receipt.server ≤ l'.reputation receipt.server ∧
    ∀ p, p ≠ receipt.server → l'.counters p = l.counters p

/-- What a receipt adds to a peer: its bytes, if it is valid and about the peer. -/
def Receipt.creditTo (p : RepPeerId) (receipt : Receipt) : Nat :=
  if receipt.verify ∧ receipt.server = p then receipt.bytes.toNat else 0

/-- The credit fits into the counter of the server. -/
def Ledger.Fits (l : Ledger RepPeerId) (receipt : Receipt) : Prop :=
  (l.counters receipt.server).creditedByReceipts.toNat + receipt.creditTo receipt.server < 2 ^ 64

omit [Ed25519] in
theorem addAssign_of_lt {overflowChecks : Bool} {a b : UInt64} (h : a.toNat + b.toNat < 2 ^ 64) :
    addAssign overflowChecks a b = some (saturatingAdd a b.toNat) := by
  rw [addAssign, if_neg fun h' => absurd h'.2 (by omega), Option.some.injEq, ← UInt64.toNat_inj,
    UInt64.toNat_add, toNat_saturatingAdd]
  omega

omit [Ed25519] in
/-- A sum that is too large is less than what it was added to, if there is one. -/
theorem addAssign_lt {overflowChecks : Bool} {a b n : UInt64} (h : 2 ^ 64 ≤ a.toNat + b.toNat)
    (hn : addAssign overflowChecks a b = some n) : n < a := by
  rw [addAssign] at hn
  split at hn
  · cases hn
  · cases hn
    have ha := a.toNat_lt
    have hb := b.toNat_lt
    rw [UInt64.lt_iff_toNat_lt, UInt64.toNat_add]
    omega

/-- A credit that fits is booked as `credit_receipt` books it. -/
theorem Ledger.applyReceipt_of_fits {l : Ledger RepPeerId} {receipt : Receipt}
    (h : l.Fits receipt) (overflowChecks : Bool) :
    l.applyReceipt overflowChecks receipt = some (receipt.verify,
      if receipt.verify then l.creditReceipt receipt.server receipt.bytes else l) := by
  unfold Ledger.applyReceipt
  cases hverify : receipt.verify with
  | false => simp
  | true =>
    rw [Ledger.Fits, Receipt.creditTo, if_pos ⟨hverify, rfl⟩] at h
    rw [addAssign_of_lt h]
    rfl

/-- After a credit that fits, nobody's counter has passed its bound. -/
theorem Ledger.credited_of_fits {l : Ledger RepPeerId} {receipt : Receipt} (h : l.Fits receipt)
    (p : RepPeerId) :
    ((if receipt.verify then l.creditReceipt receipt.server receipt.bytes else l).counters
      p).creditedByReceipts.toNat =
        (l.counters p).creditedByReceipts.toNat + receipt.creditTo p := by
  rw [Ledger.Fits] at h
  unfold Receipt.creditTo at h ⊢
  by_cases hverify : receipt.verify = true
  · rw [if_pos hverify]
    by_cases hp : p = receipt.server
    · subst hp
      rw [if_pos ⟨hverify, rfl⟩] at h ⊢
      simp only [Ledger.creditReceipt, Ledger.counters_update, toNat_saturatingAdd]
      omega
    · rw [Ledger.creditReceipt, Ledger.counters_update_of_ne _ _ hp,
        if_neg fun h' => hp h'.2.symm, Nat.add_zero]
  · rw [if_neg hverify, if_neg fun h' => hverify h'.1, Nat.add_zero]

/-- One receipt is absorbed as it should be if and only if its credit fits: a sum that does not fit
panics or comes out less. -/
theorem Ledger.absorbs_iff_fits {overflowChecks : Bool} {l : Ledger RepPeerId}
    {receipt : Receipt} : l.Absorbs overflowChecks receipt ↔ l.Fits receipt := by
  constructor
  · rintro ⟨l', happly, -, -, hcredited, -, -⟩
    by_contra hfits
    have hverify : receipt.verify = true := by
      by_contra hno
      refine hfits ?_
      have hlt := (l.counters receipt.server).creditedByReceipts.toNat_lt
      rw [Ledger.Fits, Receipt.creditTo, if_neg fun h => hno h.1]
      omega
    rw [Ledger.Fits, Receipt.creditTo, if_pos ⟨hverify, rfl⟩, not_lt] at hfits
    rw [Ledger.applyReceipt, hverify] at happly
    cases hadd : addAssign overflowChecks (l.counters receipt.server).creditedByReceipts
        receipt.bytes with
    | none =>
      rw [hadd] at happly
      cases happly
    | some credited =>
      rw [hadd] at happly
      cases happly
      rw [Ledger.counters_update] at hcredited
      exact absurd (addAssign_lt hfits hadd) (UInt64.not_lt.mpr hcredited)
  · intro hfits
    have happly := l.applyReceipt_of_fits hfits overflowChecks
    have hcredited := Ledger.credited_of_fits hfits receipt.server
    by_cases hverify : receipt.verify = true
    · rw [if_pos hverify] at happly hcredited
      have hle : (l.counters receipt.server).creditedByReceipts ≤
          ((l.creditReceipt receipt.server receipt.bytes).counters
            receipt.server).creditedByReceipts := by
        rw [UInt64.le_iff_toNat_le]
        exact hcredited.symm ▸ Nat.le_add_right _ _
      refine ⟨_, happly, fun h => absurd h (by simp [hverify]), fun _ => rfl, hle, ?_,
        fun p hp => Ledger.counters_update_of_ne l _ hp⟩
      refine Ledger.reputation_mono ?_ hle ?_
      · simp [Ledger.creditReceipt]
      · simp [Ledger.creditReceipt]
    · rw [if_neg hverify] at happly
      exact ⟨l, happly, fun _ => rfl, fun h => absurd h hverify, UInt64.le_refl _, le_refl _,
        fun _ _ => rfl⟩

/-- Receipts are absorbed as they should be if and only if, for every peer, what it is credited with
and the bytes of all the valid receipts about it stay below the bound of the counter. It makes no
difference whether the build checks for overflows. -/
theorem Ledger.absorbs_iff (overflowChecks : Bool) (l : Ledger RepPeerId)
    (receipts : List Receipt) :
    Along (Ledger.absorb overflowChecks) (Ledger.Absorbs overflowChecks) l receipts ↔
      ∀ p, (l.counters p).creditedByReceipts.toNat + (receipts.map (Receipt.creditTo p)).sum <
        2 ^ 64 := by
  induction receipts generalizing l with
  | nil =>
    refine ⟨fun _ p => ?_, fun _ => trivial⟩
    exact (l.counters p).creditedByReceipts.toNat_lt
  | cons receipt receipts ih =>
    rw [Along, Ledger.absorbs_iff_fits]
    have hrest (hfits : l.Fits receipt) :
        (∀ l', l.absorb overflowChecks receipt = some l' → Along (Ledger.absorb overflowChecks)
          (Ledger.Absorbs overflowChecks) l' receipts) ↔
        ∀ p, (l.counters p).creditedByReceipts.toNat +
          ((receipt :: receipts).map (Receipt.creditTo p)).sum < 2 ^ 64 := by
      have habsorb : l.absorb overflowChecks receipt = some (if receipt.verify then
          l.creditReceipt receipt.server receipt.bytes else l) := by
        rw [Ledger.absorb, l.applyReceipt_of_fits hfits]
        rfl
      rw [habsorb]
      simp only [Option.some.injEq, forall_eq', ih, Ledger.credited_of_fits hfits,
        List.map_cons, List.sum_cons, Nat.add_assoc]
    constructor
    · rintro ⟨hfits, h⟩
      exact (hrest hfits).mp h
    · intro h
      have hfits : l.Fits receipt := by
        have hserver := h receipt.server
        rw [List.map_cons, List.sum_cons] at hserver
        unfold Ledger.Fits
        omega
      exact ⟨hfits, (hrest hfits).mpr h⟩

end

/-! ## Two receipts that do not fit together -/

/-- `u64::MAX`. -/
def u64Max : UInt64 := 0xFFFFFFFFFFFFFFFF

/-- A valid receipt of one peer for another, of this many bytes. -/
def receiptOf (bytes epoch : UInt64) : Receipt :=
  @Receipt.issue ownSignatures (.ofByte 1) (.ofByte 0) bytes epoch

/-- The ledger after a receipt for as many bytes as a counter can show. -/
def fullLedger : Ledger RepPeerId := Ledger.creditReceipt ⟨∅⟩ (.ofByte 0) u64Max

/-- One byte more panics, or takes all the credit away. -/
theorem absorbs_one_byte_more :
    let _ := ownSignatures
    (receiptOf u64Max 0).verify ∧ (receiptOf 1 1).verify ∧
    (∀ overflowChecks, Ledger.absorb overflowChecks ⟨∅⟩ (receiptOf u64Max 0) =
      some fullLedger) ∧
    fullLedger.applyReceipt true (receiptOf 1 1) = none ∧
    ((fullLedger.applyReceipt false (receiptOf 1 1)).map fun r =>
      (r.2.counters (.ofByte 0)).creditedByReceipts) = some 0 ∧
    ∀ overflowChecks, ¬ Along (Ledger.absorb overflowChecks) (Ledger.Absorbs overflowChecks) ⟨∅⟩
      [receiptOf u64Max 0, receiptOf 1 1] := by
  let _ := ownSignatures
  have hfirst (overflowChecks : Bool) :
      Ledger.absorb overflowChecks ⟨∅⟩ (receiptOf u64Max 0) = some fullLedger := by
    have hfits : Ledger.Fits ⟨∅⟩ (receiptOf u64Max 0) := by
      unfold Ledger.Fits
      decide +kernel
    rw [Ledger.absorb, Ledger.applyReceipt_of_fits hfits]
    rfl
  refine ⟨by decide +kernel, by decide +kernel, hfirst, ?_, ?_, ?_⟩
  · rw [← Option.isNone_iff_eq_none]
    decide +kernel
  · decide +kernel
  · intro overflowChecks h
    have hfits : fullLedger.Fits (receiptOf 1 1) :=
      Ledger.absorbs_iff_fits.mp (h.2 fullLedger (hfirst overflowChecks)).1
    revert hfits
    unfold Ledger.Fits
    decide +kernel

end Np2ptp
