import Np2ptp.Net.FecDownload

/-!
# How long a download from symbols can be kept going

The loop of `download_fec` against any batches at all. No counter of it is bounded by itself: an
empty symbol costs no bytes, a small batch causes no try, and tries are spaced by a quarter of what
is needed. What bounds the loop is how they go together (`FecLoop.Paced`): every batch but the last
brings a symbol, the first try comes with the first `need` symbols and each further one with a
quarter of them more, and the sixteenth is the last.
-/

namespace Np2ptp

open Lib

/-- The symbols between two tries to decode. -/
def FecLoop.spacing (l : FecLoop) : Nat := max (l.need / 4) 1

/-- The bytes of the symbols that are held. -/
def FecLoop.buffered (l : FecLoop) : Nat := (l.symbols.map List.length).sum

/-- The batch takes the loop over its bound of bytes. -/
def FecLoop.overfed (l : FecLoop) (batch : List Bytes) : Bool :=
  decide (min (l.manifest.totalSize.toNat * 2) (2 ^ 64 - 1) < (l.take batch).fetchedBytes)

/-- The turn of the loop with this batch tries to decode. -/
def FecLoop.tries (l : FecLoop) (batch : List Bytes) : Bool :=
  !l.overfed batch &&
    (decide (l.need ≤ (l.take batch).symbols.length) || batch.isEmpty) &&
    (decide (l.spacing ≤ (l.take batch).symbols.length - l.lastAttemptLen) || batch.isEmpty)

/-- The loop after a try that made no content. -/
def FecLoop.tried (l : FecLoop) : FecLoop :=
  { l with lastAttemptLen := l.symbols.length, attempts := l.attempts + 1 }

theorem FecLoop.tries_iff {l : FecLoop} {batch : List Bytes} (h : l.overfed batch = false) :
    l.tries batch = true ↔
      (l.need ≤ (l.take batch).symbols.length ∨ batch.isEmpty = true) ∧
        (l.spacing ≤ (l.take batch).symbols.length - l.lastAttemptLen ∨ batch.isEmpty = true) := by
  unfold FecLoop.tries
  rw [h, Bool.not_false, Bool.true_and, Bool.and_eq_true, Bool.or_eq_true, Bool.or_eq_true,
    decide_eq_true_iff, decide_eq_true_iff]

theorem FecLoop.next_again {root : Hash} {l l' : FecLoop} {exhausted : Bool}
    (h : l.next root exhausted = .again l') :
    exhausted = false ∧ l.attempts < MAX_DECODE_ATTEMPTS ∧ l' = l := by
  unfold FecLoop.next at h
  split at h
  · cases h
  · next hmore =>
    split at h
    · cases h
    · next hfew =>
      cases h
      exact ⟨Bool.eq_false_iff.mpr hmore, Nat.lt_of_not_le hfew, rfl⟩

/-! ## The pace of the loop -/

/-- The symbols that a loop may get before its next try. -/
def FecLoop.gap (l : FecLoop) : Nat := if l.attempts = 0 then l.need else l.spacing

/-- The batches that a loop has had at most by its last try. -/
def FecLoop.budget (l : FecLoop) : Nat :=
  if l.attempts = 0 then 0 else l.need + (l.attempts - 1) * l.spacing

/-- The state of a loop that goes on after so many batches. -/
structure FecLoop.Paced (m : Manifest) (rounds : Nat) (l : FecLoop) : Prop where
  manifest : l.manifest = m
  need : l.need = max (divCeil m.totalSize.toNat DEFAULT_SYMBOL_SIZE) 1
  few : l.attempts < MAX_DECODE_ATTEMPTS
  first : if l.attempts = 0 then l.lastAttemptLen = 0 else l.need ≤ l.lastAttemptLen
  since : l.lastAttemptLen ≤ l.symbols.length
  within : l.symbols.length < l.lastAttemptLen + l.gap
  rounds : rounds + l.lastAttemptLen ≤ l.budget + l.symbols.length
  bytes : l.fetchedBytes = l.buffered ∧ l.buffered ≤ m.totalSize.toNat * 2

/-- The batches that the tries so far allow: the first waits for `need` symbols, and each of the
others for `spacing` more. -/
theorem FecLoop.Paced.lt_of_tries {m : Manifest} {n : Nat} {l : FecLoop} (h : l.Paced m n) :
    n < l.need + l.attempts * l.spacing := by
  have hfirst := h.first
  have hwithin := h.within
  have hrounds := h.rounds
  unfold FecLoop.gap at hwithin
  unfold FecLoop.budget at hrounds
  by_cases h0 : l.attempts = 0
  · rw [if_pos h0] at hfirst hwithin hrounds
    omega
  · rw [if_neg h0] at hwithin hrounds
    obtain ⟨k, hk⟩ := Nat.exists_eq_succ_of_ne_zero h0
    rw [hk, Nat.succ_sub_one] at hrounds
    rw [hk, Nat.succ_mul]
    omega

/-- A loop that goes on has had fewer batches than the sixteenth try allows. -/
theorem FecLoop.Paced.rounds_lt {m : Manifest} {n : Nat} {l : FecLoop} (h : l.Paced m n) :
    n < l.need + 15 * l.spacing :=
  h.lt_of_tries.trans_le
    (Nat.add_le_add_left (Nat.mul_le_mul_right _ (Nat.le_of_lt_succ h.few)) _)

/-! ## The turns -/

section

variable [RaptorQ]

/-- The loop while it goes on, when it has taken so many of the batches. -/
def FecLoop.after (root : Hash) (l : FecLoop) (batches : Nat → List Bytes) : Nat → Option FecLoop
  | 0 => some l
  | n + 1 =>
    match FecLoop.after root l batches n with
    | none => none
    | some l =>
      match l.turn root (batches n) with
      | .again l => some l
      | .decoded _ _ => none
      | .failed _ => none

/-- How often the loop tries to decode in its first turns. -/
def FecLoop.triesUpTo (root : Hash) (l : FecLoop) (batches : Nat → List Bytes) : Nat → Nat
  | 0 => 0
  | n + 1 =>
    FecLoop.triesUpTo root l batches n +
      if (FecLoop.after root l batches n).any fun l => l.tries (batches n) then 1 else 0

/-- A turn that keeps within the bytes tries, or it does not and the codec has no part in it. -/
theorem FecLoop.turn_eq (root : Hash) {l : FecLoop} {batch : List Bytes}
    (h : l.overfed batch = false) : l.turn root batch =
      if l.tries batch then
        (Fec.decode (l.take batch).config (l.take batch).manifest.totalSize.toNat
          (l.take batch).symbols).elim
            ((l.take batch).tried.next root batch.isEmpty) (.decoded (l.take batch).tried)
      else if l.need ≤ (l.take batch).symbols.length ∨ batch.isEmpty then
        (l.take batch).next root batch.isEmpty
      else .again (l.take batch) := by
  have hbytes : ¬ min ((l.take batch).manifest.totalSize.toNat * 2) (2 ^ 64 - 1) <
    (l.take batch).fetchedBytes := of_decide_eq_false h
  have htries := FecLoop.tries_iff h
  have hfields : (l.take batch).need = l.need ∧ (l.take batch).lastAttemptLen = l.lastAttemptLen :=
    ⟨rfl, rfl⟩
  unfold FecLoop.turn
  dsimp only
  rw [if_neg hbytes, hfields.1, hfields.2]
  by_cases hneed : l.need ≤ (l.take batch).symbols.length ∨ batch.isEmpty
  · rw [if_pos hneed, if_pos hneed]
    by_cases hspacing : l.spacing ≤ (l.take batch).symbols.length - l.lastAttemptLen ∨ batch.isEmpty
    · rw [if_pos (htries.mpr ⟨hneed, hspacing⟩),
        if_pos (show max (l.need / 4) 1 ≤ _ ∨ _ from hspacing)]
      cases Fec.decode (l.take batch).config (l.take batch).manifest.totalSize.toNat
        (l.take batch).symbols <;> rfl
    · rw [if_neg fun ht => hspacing (htries.mp ht).2,
        if_neg (show ¬ (max (l.need / 4) 1 ≤ _ ∨ _) from hspacing)]
  · rw [if_neg hneed, if_neg hneed, if_neg fun ht => hneed (htries.mp ht).1]

/-- A turn that goes on brought a symbol and kept within the bytes, and has counted its try. -/
theorem FecLoop.turn_again {root : Hash} {l l' : FecLoop} {batch : List Bytes}
    (h : l.turn root batch = .again l') : batch ≠ [] ∧ l.overfed batch = false ∧
      (l.tries batch = true ∧ l' = (l.take batch).tried ∧ l'.attempts < MAX_DECODE_ATTEMPTS ∨
        l.tries batch = false ∧ l' = l.take batch) := by
  have hfed : l.overfed batch = false := by
    refine Bool.eq_false_iff.mpr fun hover => ?_
    unfold FecLoop.turn at h
    dsimp only at h
    rw [if_pos (show min ((l.take batch).manifest.totalSize.toNat * 2) (2 ^ 64 - 1) < _ from
      of_decide_eq_true hover)] at h
    cases h
  rw [FecLoop.turn_eq root hfed] at h
  have hsome (he : batch.isEmpty = false) : batch ≠ [] := by
    rintro rfl
    cases he
  by_cases htries : l.tries batch = true
  · rw [if_pos htries] at h
    cases hdecode : Fec.decode (l.take batch).config (l.take batch).manifest.totalSize.toNat
      (l.take batch).symbols with
    | some data =>
      rw [hdecode] at h
      cases h
    | none =>
      rw [hdecode] at h
      obtain ⟨he, hfew, rfl⟩ := FecLoop.next_again h
      exact ⟨hsome he, hfed, .inl ⟨htries, rfl, hfew⟩⟩
  · have hno := Bool.eq_false_iff.mpr htries
    rw [if_neg htries] at h
    split at h
    · obtain ⟨he, -, rfl⟩ := FecLoop.next_again h
      exact ⟨hsome he, hfed, .inr ⟨hno, rfl⟩⟩
    · next hneed =>
      cases h
      exact ⟨hsome (Bool.eq_false_iff.mpr fun he => hneed (.inr he)), hfed, .inr ⟨hno, rfl⟩⟩

theorem FecLoop.paced_begin (m : Manifest) : FecLoop.Paced m 0 (.begin m) where
  manifest := rfl
  need := rfl
  few := Nat.zero_lt_succ 15
  first := rfl
  since := Nat.le_refl 0
  within := by
    show 0 < 0 + max (divCeil m.totalSize.toNat DEFAULT_SYMBOL_SIZE) 1
    omega
  rounds := Nat.le_refl 0
  bytes := ⟨rfl, Nat.zero_le _⟩

/-- One turn keeps the pace. -/
theorem FecLoop.Paced.turn {root : Hash} {m : Manifest} {n : Nat} {l l' : FecLoop}
    {batch : List Bytes} (h : l.Paced m n) (hm : m.totalSize.toNat ≤ MAX_FEC_TRANSFER_SIZE)
    (hturn : l.turn root batch = .again l') : l'.Paced m (n + 1) := by
  obtain ⟨hne, hfed, hcases⟩ := FecLoop.turn_again hturn
  have hgrow : l.symbols.length + 1 ≤ (l.take batch).symbols.length := by
    show _ ≤ (l.symbols ++ batch).length
    rw [List.length_append]
    exact Nat.add_le_add_left (List.length_pos_iff.mpr hne) _
  have hbytes : (l.take batch).fetchedBytes = (l.take batch).buffered ∧
      (l.take batch).buffered ≤ m.totalSize.toNat * 2 := by
    have hmax : MAX_FEC_TRANSFER_SIZE = 2 ^ 35 := by decide
    have hsum : (l.take batch).buffered = l.buffered + (batch.map List.length).sum := by
      show ((l.symbols ++ batch).map List.length).sum = _
      rw [List.map_append, List.sum_append]
      rfl
    have hfetched : (l.take batch).fetchedBytes =
        min (l.fetchedBytes + (batch.map List.length).sum) (2 ^ 64 - 1) := rfl
    have hover : ¬ min (l.manifest.totalSize.toNat * 2) (2 ^ 64 - 1) <
      (l.take batch).fetchedBytes := of_decide_eq_false hfed
    rw [h.manifest, hfetched, h.bytes.1] at hover
    rw [hfetched, hsum, h.bytes.1]
    omega
  have hspacing : 0 < l.spacing ∧ l.spacing ≤ l.need := by
    have hneed := h.need
    unfold FecLoop.spacing
    omega
  have htries := FecLoop.tries_iff hfed
  have hempty : ¬ batch.isEmpty = true := fun he => hne (List.isEmpty_iff.mp he)
  simp only [hempty, Bool.false_eq_true, or_false] at htries
  have hfirst := h.first
  have hwithin := h.within
  have hrounds := h.rounds
  have hsince := h.since
  rcases hcases with ⟨htry, rfl, hfew⟩ | ⟨hno, rfl⟩
  · obtain ⟨hneed, -⟩ := htries.mp htry
    refine ⟨h.manifest, h.need, hfew, hneed, Nat.le_refl _, ?_, ?_, hbytes⟩
    · show _ < _ + l.spacing
      exact Nat.lt_add_of_pos_right hspacing.1
    · show n + 1 + _ ≤ l.need + l.attempts * l.spacing + _
      exact Nat.add_le_add_right h.lt_of_tries _
  · -- a turn that does not try has not got what the next try waits for
    have hwait : (l.take batch).symbols.length < l.lastAttemptLen + l.gap := by
      have hshort : ¬ (_ ∧ _) := fun hboth => Bool.eq_false_iff.mp hno (htries.mpr hboth)
      unfold FecLoop.gap at hwithin ⊢
      by_cases h0 : l.attempts = 0
      · rw [if_pos h0] at hfirst hwithin ⊢
        omega
      · rw [if_neg h0] at hfirst hwithin ⊢
        omega
    have hle : n + 1 + l.lastAttemptLen ≤ l.budget + (l.take batch).symbols.length := by omega
    have hheld : l.lastAttemptLen ≤ (l.take batch).symbols.length := by omega
    exact ⟨h.manifest, h.need, h.few, hfirst, hheld, hwait, hle, hbytes⟩

/-! ## The whole loop -/

/-- A whole run keeps the pace, and has tried as often as it counted. -/
theorem FecLoop.paced_after {root : Hash} {m : Manifest} {batches : Nat → List Bytes}
    (hm : m.totalSize.toNat ≤ MAX_FEC_TRANSFER_SIZE) (n : Nat) {l : FecLoop}
    (h : (FecLoop.begin m).after root batches n = some l) :
    l.Paced m n ∧ (FecLoop.begin m).triesUpTo root batches n = l.attempts := by
  induction n generalizing l with
  | zero =>
    cases h
    exact ⟨FecLoop.paced_begin m, rfl⟩
  | succ n ih =>
    rw [FecLoop.after] at h
    cases hn : (FecLoop.begin m).after root batches n with
    | none =>
      rw [hn] at h
      cases h
    | some l₀ =>
      rw [hn] at h
      dsimp only at h
      obtain ⟨hpaced, htries⟩ := ih hn
      split at h
      · next l' hturn =>
        cases h
        refine ⟨hpaced.turn hm hturn, ?_⟩
        obtain ⟨-, -, ⟨htry, rfl, -⟩ | ⟨hno, rfl⟩⟩ := FecLoop.turn_again hturn
        · rw [FecLoop.triesUpTo, htries, hn, Option.any_some, if_pos htry]
          rfl
        · rw [FecLoop.triesUpTo, htries, hn, Option.any_some, if_neg (by rw [hno]; simp)]
          rfl
      · cases h
      · cases h

/-- No provider keeps the loop running. Whatever batches are sent, one of the first
`need + 15 * q + 1` is the last; the loop has tried at most sixteen times to decode, and what it
held before the last batch is at most twice the content. -/
theorem download_fec_ends (root : Hash) {m : Manifest}
    (hm : m.totalSize.toNat ≤ MAX_FEC_TRANSFER_SIZE) (batches : Nat → List Bytes) :
    let need := max (divCeil m.totalSize.toNat DEFAULT_SYMBOL_SIZE) 1
    let q := max (need / 4) 1
    ∃ n l, n + 1 ≤ need + 15 * q + 1 ∧ (FecLoop.begin m).after root batches n = some l ∧
      (∀ l', l.turn root (batches n) ≠ .again l') ∧
      (FecLoop.begin m).triesUpTo root batches (n + 1) ≤ MAX_DECODE_ATTEMPTS ∧
      l.buffered ≤ 2 * m.totalSize.toNat := by
  intro need q
  have hbound {n : Nat} {l : FecLoop} (h : (FecLoop.begin m).after root batches n = some l) :
      n < need + 15 * q := by
    obtain ⟨hpaced, -⟩ := FecLoop.paced_after hm n h
    have hlt := hpaced.rounds_lt
    have hspacing : l.spacing = max (l.need / 4) 1 := rfl
    rw [hspacing, hpaced.need] at hlt
    exact hlt
  -- the last turn is the one after which the loop does not go on
  have hend : ∃ n, (FecLoop.begin m).after root batches n = none := by
    refine ⟨need + 15 * q, Option.eq_none_iff_forall_ne_some.mpr fun l hl => ?_⟩
    exact Nat.lt_irrefl _ (hbound hl)
  obtain ⟨n, hnone, hbefore⟩ : ∃ n, (FecLoop.begin m).after root batches (n + 1) = none ∧
      (FecLoop.begin m).after root batches n ≠ none := by
    have hpos : Nat.find hend ≠ 0 := by
      intro h0
      have hstart := Nat.find_spec hend
      rw [h0] at hstart
      cases hstart
    obtain ⟨n, hn⟩ := Nat.exists_eq_succ_of_ne_zero hpos
    refine ⟨n, ?_, Nat.find_min hend (by omega)⟩
    have hfound := Nat.find_spec hend
    rwa [hn] at hfound
  obtain ⟨l, hl⟩ := Option.ne_none_iff_exists'.mp hbefore
  obtain ⟨hpaced, htries⟩ := FecLoop.paced_after hm n hl
  refine ⟨n, l, Nat.le_of_lt (Nat.succ_lt_succ (hbound hl)), hl, fun l' hturn => ?_, ?_, ?_⟩
  · rw [FecLoop.after, hl] at hnone
    dsimp only at hnone
    rw [hturn] at hnone
    cases hnone
  · have hfew := hpaced.few
    rw [FecLoop.triesUpTo, htries]
    split <;> omega
  · rw [Nat.mul_comm]
    exact hpaced.bytes.2

end

/-- A provider that sends empty symbols only, one at a time. -/
theorem download_fec_ends_x :
    let _ := oneSymbolCode
    let m : Manifest := ⟨rootOfX, 1, [⟨digestOfX, 0, 1⟩], [], none⟩
    ∃ n l, n + 1 ≤ 1 + 15 * 1 + 1 ∧ (FecLoop.begin m).after rootOfX (fun _ => [[]]) n = some l ∧
      (∀ l', l.turn rootOfX [[]] ≠ .again l') ∧
      (FecLoop.begin m).triesUpTo rootOfX (fun _ => [[]]) (n + 1) ≤ 16 ∧ l.buffered ≤ 2 * 1 := by
  intro _ m
  have hneed : max (divCeil m.totalSize.toNat DEFAULT_SYMBOL_SIZE) 1 = 1 := by decide
  have h := download_fec_ends rootOfX (by decide : m.totalSize.toNat ≤ MAX_FEC_TRANSFER_SIZE)
    fun _ => [[]]
  rwa [hneed] at h

end Np2ptp
