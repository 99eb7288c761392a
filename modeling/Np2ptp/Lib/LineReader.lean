import Np2ptp.Lib.LineLog

/-!
# Reading lines of bounded length

A reader that takes a line in one read of bounded length, and can throw away the rest of a line that
was longer in reads of bounded length too. A stream is either a line with its separator and what
follows, or a last line without one (`line_or_last`); both reads are described in these two cases.
-/

namespace Np2ptp.Lib

variable {α : Type*} [DecidableEq α] {nl : α}

/-- One read: up to the first separator, that included, but at most `limit` symbols; and what is
left of the stream. -/
def readPiece (nl : α) : Nat → List α → List α × List α
  | 0, s => ([], s)
  | _ + 1, [] => ([], [])
  | n + 1, a :: t =>
    if a = nl then ([a], t) else (a :: (readPiece nl n t).1, (readPiece nl n t).2)

/-- A stream begins with a line, or is a last line that is not closed. -/
theorem line_or_last (nl : α) (s : List α) :
    (∃ l t, nl ∉ l ∧ s = l ++ nl :: t) ∨ nl ∉ s := by
  by_cases h : nl ∈ s
  · obtain ⟨l, t, hs, hl⟩ := List.eq_append_cons_of_mem h
    exact .inl ⟨l, t, hl, hs⟩
  · exact .inr h

theorem readPiece_append (nl : α) (limit : Nat) (s : List α) :
    (readPiece nl limit s).1 ++ (readPiece nl limit s).2 = s := by
  induction limit generalizing s with
  | zero => rfl
  | succ n ih =>
    cases s with
    | nil => rfl
    | cons a t =>
      rw [readPiece]
      split
      · rfl
      · exact congrArg (a :: ·) (ih t)

/-- A line that has no room in the read is cut. -/
theorem readPiece_cut {l : List α} (hl : nl ∉ l) {limit : Nat} (h : limit ≤ l.length)
    (t : List α) : readPiece nl limit (l ++ t) = (l.take limit, l.drop limit ++ t) := by
  induction l generalizing limit with
  | nil =>
    rw [Nat.eq_zero_of_le_zero h]
    rfl
  | cons a l ih =>
    cases limit with
    | zero => rfl
    | succ n =>
      have ha : a ≠ nl := fun h => hl (h ▸ List.mem_cons_self)
      rw [List.cons_append, readPiece, if_neg ha,
        ih (fun h => hl (List.mem_cons_of_mem a h)) (Nat.le_of_succ_le_succ h)]
      rfl

/-- A line that has room in the read is read with its separator. -/
theorem readPiece_line {l : List α} (hl : nl ∉ l) {limit : Nat} (h : l.length < limit)
    (t : List α) : readPiece nl limit (l ++ nl :: t) = (l ++ [nl], t) := by
  induction l generalizing limit with
  | nil =>
    obtain ⟨n, rfl⟩ := Nat.exists_eq_succ_of_ne_zero (Nat.ne_of_gt h)
    exact if_pos rfl
  | cons a l ih =>
    cases limit with
    | zero => cases h
    | succ n =>
      have ha : a ≠ nl := fun h => hl (h ▸ List.mem_cons_self)
      rw [List.cons_append, readPiece, if_neg ha,
        ih (fun h => hl (List.mem_cons_of_mem a h)) (Nat.lt_of_succ_lt_succ h)]
      rfl

/-- A last line is read as far as there is room. -/
theorem readPiece_last {l : List α} (hl : nl ∉ l) (limit : Nat) :
    readPiece nl limit l = (l.take limit, l.drop limit) := by
  induction l generalizing limit with
  | nil => cases limit <;> rfl
  | cons a l ih =>
    cases limit with
    | zero => rfl
    | succ n =>
      have ha : a ≠ nl := fun h => hl (h ▸ List.mem_cons_self)
      rw [readPiece, if_neg ha, ih fun h => hl (List.mem_cons_of_mem a h)]
      rfl

/-- A read that reads something leaves less. -/
theorem length_readPiece_lt {limit : Nat} {s : List α} (h : (readPiece nl limit s).1 ≠ []) :
    (readPiece nl limit s).2.length < s.length := by
  have hlength := congrArg List.length (readPiece_append nl limit s)
  rw [List.length_append] at hlength
  have := List.length_pos_iff.mpr h
  omega

/-- The rest of a line is thrown away: it is read until a read ends with the separator, or reads
nothing. The flag says that the separator was found. -/
def skipPiece (nl : α) (limit : Nat) (s : List α) : Bool × List α :=
  if (readPiece nl limit s).1 = [] then (false, (readPiece nl limit s).2)
  else if (readPiece nl limit s).1.getLast? = some nl then (true, (readPiece nl limit s).2)
  else skipPiece nl limit (readPiece nl limit s).2
termination_by s.length
decreasing_by exact length_readPiece_lt ‹_›

theorem length_skipPiece_le (nl : α) (limit : Nat) (s : List α) :
    (skipPiece nl limit s).2.length ≤ s.length := by
  fun_induction skipPiece nl limit s with
  | case1 s h =>
    have hlength := congrArg List.length (readPiece_append nl limit s)
    rw [List.length_append] at hlength
    dsimp only
    omega
  | case2 s h hlast => exact (length_readPiece_lt h).le
  | case3 s h hlast ih => exact ih.trans (length_readPiece_lt h).le

omit [DecidableEq α] in
/-- A stretch without a separator does not end with one. -/
theorem getLast?_ne_of_notMem {l : List α} (h : nl ∉ l) : l.getLast? ≠ some nl :=
  fun hlast => h (List.mem_of_getLast? hlast)

/-- The rest of a line is thrown away with its separator, however long it is. -/
theorem skipPiece_line {l : List α} (hl : nl ∉ l) {limit : Nat} (hlimit : 0 < limit)
    (t : List α) : skipPiece nl limit (l ++ nl :: t) = (true, t) := by
  induction hn : l.length using Nat.strong_induction_on generalizing l with
  | _ n ih =>
    rw [skipPiece]
    by_cases h : l.length < limit
    · rw [readPiece_line hl h, if_neg (by simp), if_pos (by simp)]
    · have hle : limit ≤ l.length := Nat.le_of_not_lt h
      have hne : l.take limit ≠ [] := by
        rw [← List.length_pos_iff, List.length_take]
        omega
      rw [readPiece_cut hl hle, if_neg hne,
        if_neg (getLast?_ne_of_notMem fun h => hl (List.mem_of_mem_take h))]
      refine ih (l.drop limit).length ?_ (fun h => hl (List.mem_of_mem_drop h)) rfl
      rw [List.length_drop]
      omega

/-- The rest of a last line is thrown away. -/
theorem skipPiece_last {l : List α} (hl : nl ∉ l) {limit : Nat} (hlimit : 0 < limit) :
    skipPiece nl limit l = (false, []) := by
  induction hn : l.length using Nat.strong_induction_on generalizing l with
  | _ n ih =>
    rw [skipPiece, readPiece_last hl]
    by_cases h : l = []
    · rw [if_pos (by rw [h, List.take_nil]), h, List.drop_nil]
    · have hlength := List.length_pos_iff.mpr h
      have hne : l.take limit ≠ [] := by
        rw [← List.length_pos_iff, List.length_take]
        omega
      rw [if_neg hne, if_neg (getLast?_ne_of_notMem fun h => hl (List.mem_of_mem_take h))]
      refine ih (l.drop limit).length ?_ (fun h => hl (List.mem_of_mem_drop h)) rfl
      rw [List.length_drop]
      omega

/-! ## The lines of a stream -/

theorem pieces_line_append {l : List α} (hl : nl ∉ l) (t : List α) :
    pieces nl (l ++ nl :: t) = (l ++ [nl]) :: pieces nl t := by
  rw [List.append_cons, pieces_append (terminated_concat.mpr rfl), pieces_line hl]
  rfl

theorem pieces_last {l : List α} (hl : nl ∉ l) (hne : l ≠ []) : pieces nl l = [l] := by
  induction l with
  | nil => exact absurd rfl hne
  | cons a l ih =>
    have ha : a ≠ nl := fun h => hl (h ▸ List.mem_cons_self)
    rw [pieces, if_neg ha]
    by_cases h : l = []
    · rw [h]
      rfl
    · rw [ih (fun h => hl (List.mem_cons_of_mem a h)) h]

end Np2ptp.Lib
