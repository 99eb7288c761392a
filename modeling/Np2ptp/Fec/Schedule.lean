import Mathlib.Algebra.Order.Floor.Div
import Np2ptp.Fec.RaptorQ

/-!
# When a decode is tried

Numbers only: a loop that takes `batch` symbols a turn out of `total` ones tries to decode once it
has `need` of them, and again whenever it has `spacing` more than at its last try. Since it looks
after whole batches only, the tries fall on `tryAt 0`, `tryAt 1` and so on, or on the end of the
symbols. `symbolsAtDecode` is the first of these that is enough.
-/

namespace Np2ptp

/-- Rounding up is adjoint to multiplication. -/
theorem divCeil_le_iff {n d k : Nat} (hd : 0 < d) : divCeil n d ≤ k ↔ n ≤ d * k := by
  rw [divCeil, ← Nat.ceilDiv_eq_add_pred_div]
  exact ceilDiv_le_iff_le_mul hd

theorem le_mul_divCeil (n : Nat) {d : Nat} (hd : 0 < d) : n ≤ d * divCeil n d :=
  (divCeil_le_iff hd).mp (Nat.le_refl _)

/-- What fixes the tries of a loop. -/
structure Schedule where
  batch : Nat
  need : Nat
  spacing : Nat
  total : Nat
  /-- How many symbols are enough to decode. -/
  enough : Nat

/-- What holds of the schedule of a download. -/
structure Schedule.Proper (p : Schedule) : Prop where
  batch : 0 < p.batch
  spacing : 0 < p.spacing
  spacing_le : p.spacing ≤ p.need
  need_le : p.need ≤ p.total
  enough_le : p.enough ≤ p.total

namespace Schedule

/-- How far apart the tries are. -/
def stride (p : Schedule) : Nat := p.batch * divCeil p.spacing p.batch

/-- The number of symbols at the try after `j` others, unless the symbols end before. -/
def tryAt (p : Schedule) (j : Nat) : Nat := p.batch * divCeil p.need p.batch + j * p.stride

/-- How many tries are not enough. -/
def failures (p : Schedule) : Nat := divCeil (p.enough - p.tryAt 0) p.stride

/-- The number of symbols at the first try that is enough. -/
def symbolsAtDecode (p : Schedule) : Nat := min p.total (p.tryAt p.failures)

/-- The number of symbols at the last of `j` tries. -/
def lastTry (p : Schedule) : Nat → Nat
  | 0 => 0
  | j + 1 => p.tryAt j

/-- The loop has `held` symbols, after `j` tries. -/
structure At (p : Schedule) (held j : Nat) : Prop where
  le : held ≤ p.total
  whole : held = p.total ∨ p.batch ∣ held
  before : held < p.tryAt j
  failed : j ≤ p.failures

/-- The symbols after the next batch. -/
def after (p : Schedule) (held : Nat) : Nat := min (held + p.batch) p.total

variable {p : Schedule} {held j : Nat}

theorem tryAt_succ (p : Schedule) (j : Nat) : p.tryAt (j + 1) = p.tryAt j + p.stride := by
  rw [tryAt, tryAt, Nat.succ_mul, Nat.add_assoc]

theorem tryAt_mono (p : Schedule) {i j : Nat} (h : i ≤ j) : p.tryAt i ≤ p.tryAt j :=
  Nat.add_le_add_left (Nat.mul_le_mul_right _ h) _

theorem batch_dvd_tryAt (p : Schedule) (j : Nat) : p.batch ∣ p.tryAt j :=
  Nat.dvd_add (Nat.dvd_mul_right _ _) (Nat.dvd_mul_left_of_dvd (Nat.dvd_mul_right _ _) j)

namespace Proper

theorem stride_pos (h : p.Proper) : 0 < p.stride :=
  h.spacing.trans_le (le_mul_divCeil _ h.batch)

theorem need_le_tryAt (h : p.Proper) (j : Nat) : p.need ≤ p.tryAt j :=
  (le_mul_divCeil p.need h.batch).trans (Nat.le_add_right _ _)

/-- The try after `failures` others has enough symbols, and no earlier one does. -/
theorem enough_le_tryAt_iff (h : p.Proper) : p.enough ≤ p.tryAt j ↔ p.failures ≤ j := by
  have hstart : p.tryAt j = p.tryAt 0 + p.stride * j := by
    simp only [tryAt, Nat.zero_mul, Nat.add_zero, Nat.mul_comm]
  rw [failures, divCeil_le_iff h.stride_pos, hstart]
  omega

/-- At a try there is a batch's worth of reason for it. -/
theorem spacing_le_tryAt_sub (h : p.Proper) (j : Nat) : p.spacing ≤ p.tryAt j - p.lastTry j := by
  cases j with
  | zero =>
    have hneed := h.need_le_tryAt 0
    have hle := h.spacing_le
    simp only [lastTry]
    omega
  | succ j =>
    have hstride : p.spacing ≤ p.stride := le_mul_divCeil _ h.batch
    rw [lastTry, tryAt_succ]
    omega

end Proper

/-- Multiples of the batch size that are less than another are less by a batch. -/
theorem add_le_of_dvd {b m n : Nat} (hm : b ∣ m) (hn : b ∣ n) (h : m < n) : m + b ≤ n := by
  obtain ⟨m, rfl⟩ := hm
  obtain ⟨n, rfl⟩ := hn
  rw [← Nat.mul_succ]
  exact Nat.mul_le_mul_left b (Nat.lt_of_mul_lt_mul_left h)

namespace At

/-- A turn does not step over a try. -/
theorem after_le_tryAt (ha : p.At held j) : p.after held ≤ p.tryAt j := by
  rcases ha.whole with he | hd
  · exact (Nat.min_le_right _ _).trans (he ▸ ha.before.le)
  · exact (Nat.min_le_left _ _).trans (add_le_of_dvd hd (p.batch_dvd_tryAt j) ha.before)

theorem after_le_symbolsAtDecode (ha : p.At held j) : p.after held ≤ p.symbolsAtDecode :=
  le_min (Nat.min_le_right _ _) (ha.after_le_tryAt.trans (p.tryAt_mono ha.failed))

/-- Short of the try, the loop holds whole batches or all symbols. -/
theorem after_whole (ha : p.At held j) : p.after held = p.total ∨ p.batch ∣ p.after held := by
  rcases Nat.le_total p.total (held + p.batch) with hle | hle
  · exact .inl (Nat.min_eq_right hle)
  · rcases ha.whole with he | hd
    · exact .inl (Nat.min_eq_right (by omega))
    · right
      rw [after, Nat.min_eq_left hle]
      exact Nat.dvd_add hd (Nat.dvd_refl _)

/-- A decode that is tried early is one of all symbols. -/
theorem total_of_early (h : p.Proper) (ha : p.At held j) (hlt : p.after held < p.tryAt j)
    (hneed : p.need ≤ p.after held) (hspacing : p.spacing ≤ p.after held - p.lastTry j) :
    p.after held = p.total := by
  refine ha.after_whole.resolve_right fun hd => ?_
  cases j with
  | zero =>
    obtain ⟨c, hc⟩ := hd
    rw [hc] at hneed
    have hle := (divCeil_le_iff h.batch).mpr hneed
    have hmul := Nat.mul_le_mul_left p.batch hle
    rw [tryAt, Nat.zero_mul, Nat.add_zero] at hlt
    omega
  | succ j =>
    have hpos := h.spacing
    rw [lastTry] at hspacing
    have hdvd := Nat.dvd_sub hd (p.batch_dvd_tryAt j)
    obtain ⟨c, hc⟩ := hdvd
    rw [hc] at hspacing
    have hle := (divCeil_le_iff h.batch).mpr hspacing
    have hmul := Nat.mul_le_mul_left p.batch hle
    rw [tryAt_succ, stride] at hlt
    omega

/-- All symbols, held before the try is due, are what is decoded in the end. -/
theorem symbolsAtDecode_of_total (ha : p.At held j) (he : p.after held = p.total) :
    p.symbolsAtDecode = p.total :=
  Nat.le_antisymm (Nat.min_le_left _ _) (he ▸ ha.after_le_symbolsAtDecode)

/-- A try that is enough is the first one. -/
theorem symbolsAtDecode_of_try (h : p.Proper) (ha : p.At held j) (he : p.after held = p.tryAt j)
    (henough : p.enough ≤ p.tryAt j) : p.symbolsAtDecode = p.after held := by
  have hj : p.failures = j := Nat.le_antisymm (h.enough_le_tryAt_iff.mp henough) ha.failed
  rw [symbolsAtDecode, hj, ← he]
  exact Nat.min_eq_right (Nat.min_le_right _ _)

/-- After a try that was not enough the loop waits for the next. -/
theorem next_try (h : p.Proper) (ha : p.At held j) (he : p.after held = p.tryAt j)
    (hfail : ¬p.enough ≤ p.tryAt j) : p.At (p.after held) (j + 1) where
  le := Nat.min_le_right _ _
  whole := ha.after_whole
  before := by
    have hpos := h.stride_pos
    rw [he, tryAt_succ]
    omega
  failed := by
    rw [h.enough_le_tryAt_iff] at hfail
    omega

/-- Short of the try the loop goes on waiting for it. -/
theorem next_wait (ha : p.At held j) (hlt : p.after held < p.tryAt j) :
    p.At (p.after held) j where
  le := Nat.min_le_right _ _
  whole := ha.after_whole
  before := hlt
  failed := ha.failed

/-- A turn brings symbols as long as there are any. -/
theorem lt_after (h : p.Proper) (ha : p.At held j) (hend : held ≠ p.total) :
    held < p.after held := by
  have hle := ha.le
  have hbatch := h.batch
  rw [after]
  omega

/-- When a turn tries to decode it succeeds only with the symbols of `symbolsAtDecode`; else it was
the next of the tries, and symbols are left. -/
theorem tried (h : p.Proper) (ha : p.At held j) (hneed : p.need ≤ p.after held ∨ held = p.total)
    (hspacing : p.spacing ≤ p.after held - p.lastTry j ∨ held = p.total) :
    (p.enough ≤ p.after held → p.symbolsAtDecode = p.after held) ∧
      (¬p.enough ≤ p.after held → held ≠ p.total ∧ p.after held = p.tryAt j ∧
        p.At (p.after held) (j + 1)) := by
  have htotal : p.after held = p.total ∨ p.after held = p.tryAt j := by
    by_cases hend : held = p.total
    · left
      rw [after]
      omega
    · rcases Nat.lt_or_eq_of_le ha.after_le_tryAt with hlt | htry
      · exact .inl (ha.total_of_early h hlt (hneed.resolve_right hend)
          (hspacing.resolve_right hend))
      · exact .inr htry
  constructor
  · intro henough
    rcases htotal with he | he
    · rw [he]
      exact ha.symbolsAtDecode_of_total he
    · exact ha.symbolsAtDecode_of_try h he (he ▸ henough)
  · intro hfail
    have hshort : p.after held ≠ p.total := fun he => hfail (he ▸ h.enough_le)
    have he := htotal.resolve_left hshort
    refine ⟨fun hend => hshort ?_, he, ha.next_try h he (he ▸ hfail)⟩
    rw [after]
    omega

/-- When a turn does not try, symbols are left and the try is still due. -/
theorem untried (h : p.Proper) (ha : p.At held j)
    (hno : ¬((p.need ≤ p.after held ∨ held = p.total) ∧
      (p.spacing ≤ p.after held - p.lastTry j ∨ held = p.total))) :
    held ≠ p.total ∧ p.At (p.after held) j := by
  refine ⟨fun hend => hno ⟨.inr hend, .inr hend⟩, ha.next_wait ?_⟩
  refine Nat.lt_of_le_of_ne ha.after_le_tryAt fun he => hno ⟨.inl ?_, .inl ?_⟩
  · rw [he]
    exact h.need_le_tryAt j
  · rw [he]
    exact h.spacing_le_tryAt_sub j

end At

end Schedule

end Np2ptp
