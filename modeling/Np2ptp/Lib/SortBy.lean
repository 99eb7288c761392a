import Mathlib.Data.List.Sort

/-!
# Sorting by a key

A stable sort that looks at the key of each entry only. It commutes with every change of the entries
that leaves their keys alone (`map_sortBy`), so what it does to a list is what it does to the keys;
and where no two entries have one key it gives the same list from whatever order (`sortBy_congr`). Entries with one key stay in their order
(`pair_sublist_sortBy`).
-/

namespace Np2ptp.Lib

variable {α β κ : Type*} [LE κ] [DecidableLE κ]

/-- `sort_by` on the key. -/
def sortBy (key : α → κ) (l : List α) : List α := l.insertionSort fun a b => key a ≤ key b

theorem sortBy_perm (key : α → κ) (l : List α) : (sortBy key l).Perm l :=
  List.perm_insertionSort _ l

theorem mem_sortBy {key : α → κ} {l : List α} {a : α} : a ∈ sortBy key l ↔ a ∈ l :=
  (sortBy_perm key l).mem_iff

theorem pairwise_sortBy [Std.IsLinearOrder κ] (key : α → κ) (l : List α) :
    (sortBy key l).Pairwise fun a b => key a ≤ key b := by
  have : Std.Total fun a b : α => key a ≤ key b := ⟨fun _ _ => Std.le_total⟩
  have : IsTrans α fun a b => key a ≤ key b := ⟨fun _ _ _ => Std.le_trans⟩
  exact List.pairwise_insertionSort _ l

/-- The sort sees the keys only. -/
theorem map_sortBy (key : α → κ) (key' : β → κ) (f : α → β) {l : List α}
    (h : ∀ a ∈ l, key' (f a) = key a) : (sortBy key l).map f = sortBy key' (l.map f) := by
  refine List.map_insertionSort _ _ f l fun a ha b hb => ?_
  rw [h a ha, h b hb]

/-- Entries with keys of their own come out alike from every order. -/
theorem sortBy_congr [Std.IsLinearOrder κ] {key : α → κ} {l l' : List α} (hp : l.Perm l')
    (hn : (l.map key).Nodup) : sortBy key l = sortBy key l' := by
  have hsorts : (sortBy key l).Perm (sortBy key l') :=
    ((sortBy_perm key l).trans hp).trans (sortBy_perm key l').symm
  refine hsorts.eq_of_pairwise ?_ (pairwise_sortBy key l) (pairwise_sortBy key l')
  intro a b ha hb hab hba
  have hmem : b ∈ l := hp.mem_iff.mpr (mem_sortBy.mp hb)
  exact List.inj_on_of_nodup_map hn (mem_sortBy.mp ha) hmem (Std.le_antisymm hab hba)

/-- Entries with one key stay in the order in which they came. -/
theorem pair_sublist_sortBy {key : α → κ} [Std.IsPreorder κ] {l : List α} {a b : α}
    (hkey : key a = key b) (h : [a, b].Sublist l) : [a, b].Sublist (sortBy key l) := by
  have hle : key a ≤ key b := hkey ▸ Std.le_refl _
  exact List.pair_sublist_insertionSort hle h

/-- Two entries stand in one order only. -/
theorem not_sublist_swap {l : List α} (hn : l.Nodup) {a b : α} (h : [a, b].Sublist l) :
    ¬ [b, a].Sublist l := by
  induction l with
  | nil => exact absurd h (by simp)
  | cons x l ih =>
    obtain ⟨hx, hn⟩ := List.nodup_cons.mp hn
    intro h'
    cases h with
    | cons _ h =>
      cases h' with
      | cons _ h' => exact ih hn h h'
      | cons_cons _ _ => exact hx (h.subset (by simp))
    | cons_cons _ h =>
      cases h' with
      | cons _ h' => exact hx (h'.subset (by simp))
      | cons_cons _ _ => exact hx (h.subset (by simp))

end Np2ptp.Lib
