import Mathlib.Data.List.Dedup
import Mathlib.Data.List.Induction
import Mathlib.Data.List.Perm.Subperm
import Mathlib.Data.List.Sort

/-!
# The first `k` of a sort

`topK r k l` is what is left of `l` when it is sorted by `r`, stably, and cut after `k` elements.
Where `r` is a linear order it does not depend on the order of `l`. A bag that is kept at `k`
elements, sorting and cutting whenever something new is offered, holds the keys of the first `k` of
everything that was ever offered (`Tops.offer`): what has been cut off once is no better than what
the bag holds, so it is cut off again when it comes back.
-/

namespace Np2ptp.Lib

variable {α β : Type*} {r : α → α → Prop} [DecidableRel r] {s : β → β → Prop} [DecidableRel s]

/-- The first `k` elements in the order `r`. -/
def topK (r : α → α → Prop) [DecidableRel r] (k : Nat) (l : List α) : List α :=
  (l.insertionSort r).take k

theorem length_topK (k : Nat) (l : List α) : (topK r k l).length = min k l.length := by
  rw [topK, List.length_take, List.length_insertionSort]

/-- What is left out of the first `k`. -/
theorem topK_append_perm (k : Nat) (l : List α) :
    (topK r k l ++ (l.insertionSort r).drop k).Perm l := by
  rw [topK, List.take_append_drop]
  exact List.perm_insertionSort r l

theorem topK_subperm (k : Nat) (l : List α) : (topK r k l).Subperm l :=
  ((List.sublist_append_left _ _).subperm).trans (topK_append_perm k l).subperm

section

variable [Std.Total r] [IsTrans α r]

theorem pairwise_topK (k : Nat) (l : List α) : (topK r k l).Pairwise r :=
  (List.pairwise_insertionSort r l).sublist (List.take_sublist k _)

/-- What is chosen comes before what is left out. -/
theorem topK_rel_drop (k : Nat) (l : List α) {a b : α} (ha : a ∈ topK r k l)
    (hb : b ∈ (l.insertionSort r).drop k) : r a b := by
  have h := List.pairwise_insertionSort r l
  rw [← List.take_append_drop k (l.insertionSort r)] at h
  exact (List.pairwise_append.mp h).2.2 a ha b hb

end

/-- A list that is sorted is only cut. -/
theorem topK_of_pairwise {k : Nat} {l : List α} (h : l.Pairwise r) : topK r k l = l.take k := by
  rw [topK, h.insertionSort_eq]

/-- The first `k` of the images under a map that keeps the order both ways. -/
theorem map_topK {f : α → β} (hf : ∀ a b, r a b ↔ s (f a) (f b)) (k : Nat) (l : List α) :
    (topK r k l).map f = topK s k (l.map f) := by
  rw [topK, topK, List.map_take, List.map_insertionSort r s f l fun a _ b _ => hf a b]

/-! ## Linear orders -/

section

variable [Std.Total r] [IsTrans α r] [Std.Antisymm r]

/-- The order of the list is no matter. -/
theorem topK_perm {k : Nat} {l l' : List α} (h : l.Perm l') : topK r k l = topK r k l' := by
  have hsorts : (l.insertionSort r).Perm (l'.insertionSort r) :=
    ((List.perm_insertionSort r l).trans h).trans (List.perm_insertionSort r l').symm
  have hsort : l.insertionSort r = l'.insertionSort r :=
    hsorts.eq_of_pairwise' (List.pairwise_insertionSort r l) (List.pairwise_insertionSort r l')
  rw [topK, topK, hsort]

end

/-- An element more takes no notice of what stands behind the first `k`. -/
theorem take_orderedInsert_take (a : α) (k : Nat) (l : List α) :
    ((l.take k).orderedInsert r a).take k = (l.orderedInsert r a).take k := by
  induction l generalizing k with
  | nil => simp
  | cons b l ih =>
    cases k with
    | zero => simp
    | succ k =>
      rw [List.take_succ_cons, List.orderedInsert_cons, List.orderedInsert_cons]
      by_cases h : r a b
      · rw [if_pos h, if_pos h, List.take_succ_cons, List.take_succ_cons]
        cases k with
        | zero => rfl
        | succ k =>
          rw [List.take_succ_cons, List.take_succ_cons, List.take_take, min_eq_left (Nat.le_succ k)]
      · rw [if_neg h, if_neg h, List.take_succ_cons, List.take_succ_cons, ih]

/-- The first `k` can be kept alone when one more comes. -/
theorem topK_cons_topK [Std.Total r] [IsTrans α r] (k : Nat) (a : α) (l : List α) :
    topK r k (a :: topK r k l) = topK r k (a :: l) := by
  rw [topK, List.insertionSort_cons, (pairwise_topK k l).insertionSort_eq, topK,
    take_orderedInsert_take, topK, List.insertionSort_cons]

/-! ## A bag of the first `k` -/

/-- The bag of what was offered, without repetitions: it is sorted, and its keys are the first `k`
of all the keys. -/
structure Tops (r : α → α → Prop) (s : β → β → Prop) [DecidableRel s] (f : α → β) (k : Nat)
    (offered bag : List α) : Prop where
  nodup : bag.Nodup
  subset : ∀ a ∈ bag, a ∈ offered
  sorted : bag.Pairwise r
  keys : bag.map f = topK s k (offered.map f)

omit [DecidableRel r] in
theorem tops_nil (f : α → β) (k : Nat) : Tops r s f k [] [] :=
  ⟨.nil, fun _ h => h, .nil, by simp [topK]⟩

omit [DecidableRel r] in
theorem Tops.perm [Std.Total s] [IsTrans β s] [Std.Antisymm s] {f : α → β} {k : Nat}
    {offered offered' bag : List α} (h : Tops r s f k offered bag) (hp : offered.Perm offered') :
    Tops r s f k offered' bag :=
  ⟨h.nodup, fun a ha => hp.mem_iff.mp (h.subset a ha), h.sorted,
    h.keys.trans (topK_perm (hp.map f))⟩

omit [DecidableRel r] in
/-- What was cut off is no better than what the bag holds, and the bag is full. -/
theorem Tops.full [Std.Total s] [IsTrans β s] [Std.Antisymm s] {f : α → β} {k : Nat}
    {offered bag : List α} (h : Tops r s f k offered bag) {a : α} (ha : a ∈ offered)
    (hno : a ∉ bag) : bag.length = k ∧ ∀ b ∈ bag, s (f b) (f a) := by
  -- the keys that are left out are those of what the bag does not hold
  obtain ⟨rest, hperm⟩ : ∃ rest, (bag ++ rest).Perm offered := by
    obtain ⟨t, ht, hsub⟩ := h.nodup.subperm h.subset
    obtain ⟨rest, hrest⟩ := hsub.exists_perm_append
    exact ⟨rest, (ht.symm.append_right rest).trans hrest.symm⟩
  have hrest : a ∈ rest := (List.mem_append.mp (hperm.mem_iff.mpr ha)).resolve_left hno
  have hcut : ((offered.map f).insertionSort s |>.drop k).Perm (rest.map f) := by
    refine (List.perm_append_left_iff (bag.map f)).mp ?_
    rw [← List.map_append, h.keys]
    exact (topK_append_perm k (offered.map f)).trans (hperm.map f).symm
  have hmem : f a ∈ ((offered.map f).insertionSort s).drop k :=
    hcut.mem_iff.mpr (List.mem_map_of_mem hrest)
  constructor
  · have hlength := congrArg List.length h.keys
    have hlong := List.length_pos_of_mem hmem
    rw [List.length_drop, List.length_insertionSort] at hlong
    rw [List.length_map, length_topK] at hlength
    omega
  · intro b hb
    refine topK_rel_drop k (offered.map f) ?_ hmem
    rw [← h.keys]
    exact List.mem_map_of_mem hb

variable [DecidableEq α]

/-- The bag is offered an element: one that it holds already changes nothing. -/
def offer (r : α → α → Prop) [DecidableRel r] (k : Nat) (bag : List α) (a : α) : List α :=
  if a ∈ bag then bag else topK r k (bag ++ [a])

/-- Every offer keeps the bag at the first `k` of what was offered, and what comes back after it was
cut off is cut off again. -/
theorem Tops.offer [Std.Total r] [IsTrans α r] [Std.Total s] [IsTrans β s] [Std.Antisymm s]
    {f : α → β} (hf : ∀ a b, r a b ↔ s (f a) (f b)) {k : Nat} {offered bag : List α}
    (h : Tops r s f k offered bag) (a : α) :
    Tops r s f k (offered.insert a) (offer r k bag a) := by
  unfold Lib.offer
  by_cases hbag : a ∈ bag
  · rw [if_pos hbag, List.insert_of_mem (h.subset a hbag)]
    exact h
  rw [if_neg hbag]
  by_cases hold : a ∈ offered
  · -- it was cut off before
    obtain ⟨hlength, hbefore⟩ := h.full hold hbag
    have hsorted : (bag ++ [a]).Pairwise r := by
      refine List.pairwise_append.mpr ⟨h.sorted, List.pairwise_singleton r a, fun b hb c hc => ?_⟩
      rw [List.mem_singleton.mp hc]
      exact (hf b a).mpr (hbefore b hb)
    rw [topK_of_pairwise hsorted, ← hlength, List.take_left, List.insert_of_mem hold, hlength]
    exact h
  · have hnodup : (bag ++ [a]).Nodup :=
      List.nodup_append.mpr ⟨h.nodup, List.nodup_singleton a, fun b hb c hc hbc =>
        hbag (List.mem_singleton.mp hc ▸ hbc ▸ hb)⟩
    refine ⟨?_, fun b hb => ?_, pairwise_topK k _, ?_⟩
    · exact ((List.perm_insertionSort r _).nodup_iff.mpr hnodup).sublist (List.take_sublist k _)
    · rw [List.insert_of_not_mem hold]
      rcases List.mem_append.mp ((topK_subperm k _).subset hb) with hb | hb
      · exact List.mem_cons_of_mem a (h.subset b hb)
      · exact List.mem_singleton.mp hb ▸ List.mem_cons_self
    · calc (topK r k (bag ++ [a])).map f
        _ = topK s k (bag.map f ++ [f a]) := by
          rw [map_topK hf, List.map_append, List.map_singleton]
        _ = topK s k (f a :: topK s k (offered.map f)) := by
          rw [h.keys]
          exact topK_perm (List.perm_append_singleton (f a) _)
        _ = topK s k ((offered.insert a).map f) := by
          rw [topK_cons_topK, List.insert_of_not_mem hold, List.map_cons]

/-- A bag that was empty, after any number of offers in any order, repetitions among them. -/
theorem tops_foldl [Std.Total r] [IsTrans α r] [Std.Total s] [IsTrans β s] [Std.Antisymm s]
    {f : α → β} (hf : ∀ a b, r a b ↔ s (f a) (f b)) (k : Nat) (xs : List α) :
    Tops r s f k xs.dedup (xs.foldl (Lib.offer r k) []) := by
  induction xs using List.reverseRecOn with
  | nil => exact tops_nil f k
  | append_singleton xs a ih =>
    rw [List.foldl_append]
    refine (ih.offer hf a).perm ?_
    refine (List.perm_ext_iff_of_nodup (List.nodup_dedup xs).insert (List.nodup_dedup _)).mpr ?_
    intro b
    rw [List.mem_insert_iff, List.mem_dedup, List.mem_dedup, List.mem_append, List.mem_singleton]
    exact or_comm

end Np2ptp.Lib
