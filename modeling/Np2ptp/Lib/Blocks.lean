import Mathlib.Data.List.Basic

/-!
# Blocks of a fixed size

A list cut into blocks of `n`, the last of which may be shorter: `slice::chunks`. A block comes off
the front (`blocks_of_ne_nil`), whole (`blocks_append`) or as all there is (`blocks_of_length_le`),
and together the blocks are the list (`flatten_blocks`).
-/

namespace Np2ptp.Lib

variable {α : Type*}

/-- The consecutive blocks of `n` elements, the last one of what is left. -/
def blocks (n : Nat) (data : List α) : List (List α) :=
  (List.range ((data.length + n - 1) / n)).map fun i => (data.drop (i * n)).take n

variable {n : Nat} {data : List α}

@[simp] theorem blocks_nil (hn : 0 < n) : blocks n ([] : List α) = [] := by
  rw [blocks, List.length_nil, Nat.zero_add, Nat.div_eq_of_lt (Nat.sub_lt hn Nat.one_pos)]
  rfl

@[simp] theorem length_blocks : (blocks n data).length = (data.length + n - 1) / n := by
  rw [blocks, List.length_map, List.length_range]

/-- The first block is off the front. -/
theorem blocks_of_ne_nil (hn : 0 < n) (h : data ≠ []) :
    blocks n data = data.take n :: blocks n (data.drop n) := by
  have hpos := List.length_pos_iff.mpr h
  have hcount : (data.length + n - 1) / n = ((data.drop n).length + n - 1) / n + 1 := by
    rw [List.length_drop, ← Nat.add_div_right _ hn]
    by_cases hle : n ≤ data.length
    · congr 1
      omega
    · rw [show data.length - n = 0 by omega, Nat.zero_add, ← Nat.sub_add_comm hn,
        Nat.div_eq_of_lt_le (k := 1) (by omega) (by omega),
        Nat.div_eq_of_lt_le (k := 1) (by omega) (by omega)]
  rw [blocks, hcount, List.range_succ_eq_map, List.map_cons, List.map_map, Nat.zero_mul,
    List.drop_zero, blocks]
  congr 1
  refine List.map_congr_left fun i _ => ?_
  show (data.drop ((i + 1) * n)).take n = ((data.drop n).drop (i * n)).take n
  rw [List.drop_drop, Nat.succ_mul, Nat.add_comm n]

/-- A whole block, and the blocks of the rest. -/
theorem blocks_append (hn : 0 < n) {block : List α} (h : block.length = n) :
    blocks n (block ++ data) = block :: blocks n data := by
  have hne : block ++ data ≠ [] := fun he => by
    rw [(List.append_eq_nil_iff.mp he).1] at h
    exact absurd hn (h ▸ Nat.lt_irrefl 0)
  subst h
  rw [blocks_of_ne_nil hn hne, List.take_left, List.drop_left]

/-- What is no longer than a block is one. -/
theorem blocks_of_length_le (hn : 0 < n) (h : data ≠ []) (hle : data.length ≤ n) :
    blocks n data = [data] := by
  rw [blocks_of_ne_nil hn h, List.take_of_length_le hle, List.drop_of_length_le hle,
    blocks_nil hn]

/-- The blocks make up the list. -/
theorem flatten_blocks (hn : 0 < n) (data : List α) : (blocks n data).flatten = data := by
  by_cases h : data = []
  · rw [h, blocks_nil hn, List.flatten_nil]
  · have hpos := List.length_pos_iff.mpr h
    have ih := flatten_blocks hn (data.drop n)
    rw [blocks_of_ne_nil hn h, List.flatten_cons, ih, List.take_append_drop]
termination_by data.length
decreasing_by
  rw [List.length_drop]
  omega

/-- Lists of the same blocks are the same list. -/
theorem eq_of_blocks_eq {data' : List α} (hn : 0 < n) (h : blocks n data = blocks n data') :
    data = data' := by
  rw [← flatten_blocks hn data, h, flatten_blocks hn]

/-- No block is empty, and none is longer than that. -/
theorem length_of_mem_blocks_le : ∀ b ∈ blocks n data, 0 < b.length ∧ b.length ≤ n := by
  intro b hb
  obtain ⟨i, hi, rfl⟩ := List.mem_map.mp hb
  have hlt := List.mem_range.mp hi
  have hle : (i + 1) * n ≤ data.length + n - 1 :=
    Nat.le_trans (Nat.mul_le_mul_right n hlt) (Nat.div_mul_le_self _ n)
  rw [Nat.succ_mul] at hle
  rw [List.length_take, List.length_drop]
  rcases Nat.eq_zero_or_pos n with rfl | hn
  · rw [Nat.div_zero] at hlt
    omega
  · omega

/-- Blocks that leave nothing over are whole. -/
theorem length_of_mem_blocks (hdvd : n ∣ data.length) : ∀ b ∈ blocks n data, b.length = n := by
  intro b hb
  obtain ⟨i, hi, rfl⟩ := List.mem_map.mp hb
  obtain ⟨k, hk⟩ := hdvd
  have hlt := List.mem_range.mp hi
  rcases Nat.eq_zero_or_pos n with rfl | hn
  · rw [List.take_zero]
    rfl
  · have hcount : (data.length + n - 1) / n = k := by
      rw [hk, Nat.add_sub_assoc hn, Nat.mul_add_div hn, Nat.div_eq_of_lt (by omega), Nat.add_zero]
    rw [hcount] at hlt
    have hle : (i + 1) * n ≤ k * n := Nat.mul_le_mul_right n hlt
    rw [List.length_take, List.length_drop, hk, Nat.mul_comm n k]
    rw [Nat.succ_mul] at hle
    omega

end Np2ptp.Lib
