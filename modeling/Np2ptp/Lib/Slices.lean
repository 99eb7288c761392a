import Mathlib.Data.List.Basic
import Mathlib.Algebra.BigOperators.Group.List.Basic
import Mathlib.Algebra.GroupWithZero.Nat

/-!
# Slices of given lengths

A list cut into consecutive slices, as long as a list of counts says. Where the elements are pieces
that are not empty, the slices are determined by what their pieces make up together: two ways to cut
the same pieces into slices with the same contents are one (`map_flatten_slices_iff`).
-/

namespace Np2ptp.Lib

variable {α : Type*}

/-- The consecutive slices that are as long as these counts. -/
def slices : List Nat → List α → List (List α)
  | [], _ => []
  | n :: counts, l => l.take n :: slices counts (l.drop n)

@[simp] theorem length_slices (counts : List Nat) (l : List α) :
    (slices counts l).length = counts.length := by
  induction counts generalizing l with
  | nil => rfl
  | cons n counts ih => rw [slices, List.length_cons, List.length_cons, ih]

/-- The lengths of some lists cut them out of all of them together. -/
theorem slices_flatten (groups : List (List α)) :
    slices (groups.map List.length) groups.flatten = groups := by
  induction groups with
  | nil => rfl
  | cons g groups ih =>
    rw [List.map_cons, List.flatten_cons, slices, List.take_left, List.drop_left, ih]

/-- As many pieces from the front as make up that many elements: pieces that are not empty leave no
choice. -/
theorem eq_of_length_flatten_take {ps : List (List α)} (hne : ∀ p ∈ ps, p ≠ []) {a b : Nat}
    (ha : a ≤ ps.length) (hb : b ≤ ps.length)
    (h : (ps.take a).flatten.length = (ps.take b).flatten.length) : a = b := by
  induction ps generalizing a b with
  | nil =>
    rw [List.length_nil, Nat.le_zero] at ha hb
    rw [ha, hb]
  | cons p ps ih =>
    have hp := List.length_pos_iff.mpr (hne p List.mem_cons_self)
    cases a with
    | zero =>
      cases b with
      | zero => rfl
      | succ b =>
        rw [List.take_zero, List.take_succ_cons, List.flatten_cons, List.length_append] at h
        simp only [List.flatten_nil, List.length_nil] at h
        omega
    | succ a =>
      cases b with
      | zero =>
        rw [List.take_zero, List.take_succ_cons, List.flatten_cons, List.length_append] at h
        simp only [List.flatten_nil, List.length_nil] at h
        omega
      | succ b =>
        rw [List.take_succ_cons, List.take_succ_cons, List.flatten_cons, List.flatten_cons,
          List.length_append, List.length_append] at h
        rw [List.length_cons] at ha hb
        have hrest : (ps.take a).flatten.length = (ps.take b).flatten.length := by omega
        rw [ih (fun q hq => hne q (List.mem_cons_of_mem _ hq)) (by omega) (by omega) hrest]

/-- The contents determine the counts, where no piece is empty and all are used up. -/
theorem map_flatten_slices_iff {groups : List (List (List α))} {counts : List Nat}
    (hne : ∀ g ∈ groups, ∀ p ∈ g, p ≠ []) (hcount : counts.length = groups.length)
    (hsum : counts.sum = groups.flatten.length) :
    (slices counts groups.flatten).map List.flatten = groups.map List.flatten ↔
      counts = groups.map List.length := by
  constructor
  · intro h
    induction groups generalizing counts with
    | nil => exact List.length_eq_zero_iff.mp hcount
    | cons g groups ih =>
      cases counts with
      | nil => cases hcount
      | cons n counts =>
        rw [slices, List.map_cons, List.map_cons, List.flatten_cons] at h
        obtain ⟨hfirst, hrest⟩ := List.cons.inj h
        rw [List.sum_cons, List.flatten_cons, List.length_append] at hsum
        have hall : ∀ p ∈ g ++ groups.flatten, p ≠ [] := by
          intro p hp
          rcases List.mem_append.mp hp with hp | hp
          · exact hne g List.mem_cons_self p hp
          · obtain ⟨g', hg', hp⟩ := List.mem_flatten.mp hp
            exact hne g' (List.mem_cons_of_mem _ hg') p hp
        have hn : n = g.length := by
          refine eq_of_length_flatten_take hall (by rw [List.length_append]; omega)
            (by rw [List.length_append]; omega) ?_
          rw [hfirst, List.take_left]
        subst hn
        rw [List.drop_left] at hrest
        rw [List.map_cons, ← ih (fun g' hg' => hne g' (List.mem_cons_of_mem _ hg'))
          (Nat.succ.inj hcount) (by omega) hrest]
  · rintro rfl
    rw [slices_flatten]

end Np2ptp.Lib
