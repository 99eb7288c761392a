import Mathlib.Data.List.Nodup

/-!
# Maps in the order of insertion

A map that lists its entries in the order in which their keys were set first, as those of several
languages do: setting a key that is there changes its value in place. The entries carry the law that
no key is there twice, so an entry is listed exactly where a lookup gives it (`mem_entries_iff`).
-/

namespace Np2ptp.Lib

/-- Entries with distinct keys. -/
structure EntryMap (κ β : Type*) where
  entries : List (κ × β)
  nodup : (entries.map Prod.fst).Nodup

namespace EntryMap

variable {κ β : Type*} [DecidableEq κ]

def empty : EntryMap κ β := ⟨[], List.nodup_nil⟩

/-- The value of a key. -/
def get (m : EntryMap κ β) (k : κ) : Option β := m.entries.lookup k

/-- A key that is there gets the new value, and another one is added at the end. -/
def setEntry (k : κ) (v : β) : List (κ × β) → List (κ × β)
  | [] => [(k, v)]
  | e :: rest => if e.1 = k then (k, v) :: rest else e :: setEntry k v rest

theorem map_fst_setEntry (k : κ) (v : β) (l : List (κ × β)) : (setEntry k v l).map Prod.fst =
    if k ∈ l.map Prod.fst then l.map Prod.fst else l.map Prod.fst ++ [k] := by
  induction l with
  | nil => rfl
  | cons e rest ih =>
    rw [setEntry, List.map_cons]
    by_cases he : e.1 = k
    · rw [if_pos he, if_pos (he ▸ List.mem_cons_self), he]
      rfl
    · have hmem : k ∈ e.1 :: rest.map Prod.fst ↔ k ∈ rest.map Prod.fst := by
        rw [List.mem_cons]
        exact or_iff_right fun h => he h.symm
      rw [if_neg he, List.map_cons, ih]
      simp only [hmem]
      split <;> rfl

/-- The value of a key is set. -/
def set (m : EntryMap κ β) (k : κ) (v : β) : EntryMap κ β where
  entries := setEntry k v m.entries
  nodup := by
    rw [map_fst_setEntry]
    split
    · exact m.nodup
    · next hnew =>
      refine List.nodup_append.mpr ⟨m.nodup, List.nodup_singleton k, fun a ha b hb hab => hnew ?_⟩
      rw [← List.mem_singleton.mp hb, ← hab]
      exact ha

@[simp] theorem get_empty (k : κ) : (empty : EntryMap κ β).get k = none := rfl

theorem lookup_cons_eq (key : κ) (value : β) (rest : List (κ × β)) (k : κ) :
    ((key, value) :: rest).lookup k = if k = key then some value else rest.lookup k := by
  rw [List.lookup_cons]
  by_cases hk : k = key
  · rw [if_pos hk, beq_iff_eq.mpr hk]
  · rw [if_neg hk, beq_eq_false_iff_ne.mpr hk]

theorem lookup_setEntry (k : κ) (v : β) (l : List (κ × β)) (k' : κ) :
    (setEntry k v l).lookup k' = if k' = k then some v else l.lookup k' := by
  induction l with
  | nil => exact lookup_cons_eq k v [] k'
  | cons e rest ih =>
    obtain ⟨key, value⟩ := e
    rw [setEntry, lookup_cons_eq key value]
    dsimp only
    by_cases he : key = k
    · rw [if_pos he, lookup_cons_eq, he]
      split <;> rfl
    · rw [if_neg he, lookup_cons_eq, ih]
      by_cases hk : k' = key
      · rw [if_pos hk, if_pos hk, if_neg fun h => he (hk.symm.trans h)]
      · rw [if_neg hk, if_neg hk]

/-- What is set is found, and everything else is as before. -/
@[simp] theorem get_set (m : EntryMap κ β) (k : κ) (v : β) (k' : κ) :
    (m.set k v).get k' = if k' = k then some v else m.get k' :=
  lookup_setEntry k v m.entries k'

/-- An entry is listed exactly where the lookup gives it. -/
theorem mem_entries_iff {m : EntryMap κ β} {k : κ} {v : β} :
    (k, v) ∈ m.entries ↔ m.get k = some v := by
  obtain ⟨l, hl⟩ := m
  rw [get]
  dsimp only at hl ⊢
  induction l with
  | nil => exact iff_of_false List.not_mem_nil nofun
  | cons e rest ih =>
    obtain ⟨key, value⟩ := e
    obtain ⟨hnew, hrest⟩ := List.nodup_cons.mp hl
    rw [List.mem_cons, lookup_cons_eq, Prod.mk.injEq, ih hrest]
    by_cases hk : k = key
    · have hnone : rest.lookup k ≠ some v := by
        intro hl
        obtain ⟨before, after, rfl, -⟩ := List.lookup_eq_some_iff.mp hl
        refine hnew (List.mem_map.mpr ⟨(k, v), ?_, hk⟩)
        exact List.mem_append_right before List.mem_cons_self
      rw [if_pos hk, or_iff_left hnone, and_iff_right hk, Option.some.injEq]
      exact eq_comm
    · rw [if_neg hk, or_iff_right fun h => hk h.1]

end EntryMap

end Np2ptp.Lib
