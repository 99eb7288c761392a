import Np2ptp.Store.Export

/-!
# What an export reports

`export_to_with_progress` and `export_tree_to_dir_with_progress` call `on_progress` once for every
chunk that they have read back, verified and written. `export_to` and `export_tree_to_dir` are the
same with a callback that does nothing, so only the calls are defined here. They count up from one,
whatever the chunks are and wherever the export stops.
-/

namespace Np2ptp

open Lib

/-! ## Calls that count -/

/-- The calls count up by one from `done`, out of `total`. -/
def Counts (total : Nat) : Nat → List (Nat × Nat) → Prop
  | _, [] => True
  | done, call :: calls => call = (done + 1, total) ∧ Counts total (done + 1) calls

/-- A call that says that everything is done, of something. -/
def IsComplete (call : Nat × Nat) : Prop := call.1 = call.2 ∧ 0 < call.2

instance : DecidablePred IsComplete :=
  fun call => inferInstanceAs (Decidable (call.1 = call.2 ∧ 0 < call.2))

theorem Counts.append {total done : Nat} {calls calls' : List (Nat × Nat)}
    (h : Counts total done calls) (h' : Counts total (done + calls.length) calls') :
    Counts total done (calls ++ calls') := by
  induction calls generalizing done with
  | nil => exact h'
  | cons call calls ih =>
    refine ⟨h.1, ih h.2 ?_⟩
    rw [List.length_cons] at h'
    rwa [Nat.add_assoc, Nat.add_comm 1]

theorem Counts.take {total done : Nat} {calls : List (Nat × Nat)} (h : Counts total done calls)
    (n : Nat) : Counts total done (calls.take n) := by
  induction calls generalizing done n with
  | nil =>
    rw [List.take_nil]
    trivial
  | cons call calls ih =>
    cases n with
    | zero => trivial
    | succ n => exact ⟨h.1, ih h.2 n⟩

/-- Calls that count say that everything is done once at most, when they get so far. -/
theorem Counts.countP_isComplete {total done : Nat} {calls : List (Nat × Nat)}
    (h : Counts total done calls) : calls.countP (fun call => IsComplete call) =
      if done < total ∧ total ≤ done + calls.length then 1 else 0 := by
  induction calls generalizing done with
  | nil =>
    rw [if_neg (by simp only [List.length_nil]; omega)]
    rfl
  | cons call calls ih =>
    obtain ⟨rfl, hrest⟩ := h
    rw [List.countP_cons, ih hrest, List.length_cons]
    by_cases hcomplete : done + 1 = total
    · -- this is the call, and those that follow count on
      have htail : ¬(done + 1 < total ∧ total ≤ done + 1 + calls.length) := by omega
      have hhead : decide (IsComplete (done + 1, total)) = true :=
        decide_eq_true ⟨hcomplete, by show 0 < total; omega⟩
      rw [if_neg htail, if_pos hhead, if_pos (by omega)]
    · have hhead : ¬ decide (IsComplete (done + 1, total)) = true :=
        fun h => hcomplete (of_decide_eq_true h).1
      rw [if_neg hhead, Nat.add_zero]
      by_cases hreach : done + 1 < total ∧ total ≤ done + 1 + calls.length
      · rw [if_pos hreach, if_pos (by omega)]
      · rw [if_neg hreach, if_neg (by omega)]

/-! ## The calls of an export -/

section

variable [Blake3]

/-- The calls in the loop of `export_to_with_progress`, from the chunk `i` on. -/
def Store.exportChunksCalls (d : Disk) (m : Manifest) :
    List ChunkRef → Nat → Store → List (Nat × Nat)
  | [], _, _ => []
  | cref :: chunks, i, s =>
    match s.get d cref.hash with
    | (.error _, _) => []
    | (.ok none, _) => []
    | (.ok (some bytes), s) =>
      if m.chunkHashOk i bytes then
        (i + 1, m.chunks.length) :: Store.exportChunksCalls d m chunks (i + 1) s
      else []

/-- The calls of `export_to_with_progress`. -/
def Store.exportToCalls (d : Disk) (s : Store) (m : Manifest) : List (Nat × Nat) :=
  if m.rootIsConsistent then Store.exportChunksCalls d m m.chunks 0 s else []

/-- The calls in the inner loop of `export_tree_to_dir_with_progress`: `count` chunks from the
index `ci` on, `done` being done before. -/
def Store.exportRangeCalls (d : Disk) (m : Manifest) :
    Nat → Nat → Nat → Store → List (Nat × Nat)
  | 0, _, _, _ => []
  | count + 1, ci, done, s =>
    match m.chunks[ci]? with
    | none => []
    | some cref =>
      match s.get d cref.hash with
      | (.error _, _) => []
      | (.ok none, _) => []
      | (.ok (some bytes), s) =>
        if m.chunkHashOk ci bytes then
          (done + 1, m.chunks.length) :: Store.exportRangeCalls d m count (ci + 1) (done + 1) s
        else []

/-- The calls in the outer loop of `export_tree_to_dir_with_progress`. -/
def Store.exportFilesCalls (d : Disk) (m : Manifest) :
    List FileEntry → Nat → Store → List (Nat × Nat)
  | [], _, _ => []
  | entry :: files, done, s =>
    match validateRelativePath entry.path.bytes with
    | .error _ => []
    | .ok () =>
      if 2 ^ 64 ≤ entry.chunkStart.toNat + entry.chunkCount.toNat then []
      else
        let calls :=
          Store.exportRangeCalls d m entry.chunkCount.toNat entry.chunkStart.toNat done s
        match Store.exportRange d m entry.chunkCount.toNat entry.chunkStart.toNat [] s with
        | (.ok, _, s) => calls ++ Store.exportFilesCalls d m files (done + calls.length) s
        | _ => calls

/-- The calls of `export_tree_to_dir_with_progress`. -/
def Store.exportTreeCalls (d : Disk) (s : Store) (m : Manifest) : List (Nat × Nat) :=
  if m.rootIsConsistent then Store.exportFilesCalls d m m.files 0 s else []

theorem Store.exportChunksCalls_counts (d : Disk) (m : Manifest) (chunks : List ChunkRef)
    (i : Nat) (s : Store) :
    Counts m.chunks.length i (Store.exportChunksCalls d m chunks i s) := by
  induction chunks generalizing i s with
  | nil => trivial
  | cons cref chunks ih =>
    rw [Store.exportChunksCalls]
    split
    · trivial
    · trivial
    · split
      · exact ⟨rfl, ih (i + 1) _⟩
      · trivial

theorem Store.exportRangeCalls_counts (d : Disk) (m : Manifest) (count ci done : Nat)
    (s : Store) : Counts m.chunks.length done (Store.exportRangeCalls d m count ci done s) := by
  induction count generalizing ci done s with
  | zero => trivial
  | succ count ih =>
    rw [Store.exportRangeCalls]
    split
    · trivial
    · split
      · trivial
      · trivial
      · split
        · exact ⟨rfl, ih (ci + 1) (done + 1) _⟩
        · trivial

theorem Store.exportFilesCalls_counts (d : Disk) (m : Manifest) (files : List FileEntry)
    (done : Nat) (s : Store) :
    Counts m.chunks.length done (Store.exportFilesCalls d m files done s) := by
  induction files generalizing done s with
  | nil => trivial
  | cons entry files ih =>
    rw [Store.exportFilesCalls]
    split
    · trivial
    · split
      · trivial
      · have hcalls := Store.exportRangeCalls_counts d m entry.chunkCount.toNat
          entry.chunkStart.toNat done s
        dsimp only
        split
        · exact hcalls.append (ih _ _)
        · exact hcalls

/-- An export counts the chunks that it has written. -/
theorem Store.exportToCalls_counts (d : Disk) (s : Store) (m : Manifest) :
    Counts m.chunks.length 0 (s.exportToCalls d m) := by
  unfold Store.exportToCalls
  split
  · exact Store.exportChunksCalls_counts d m m.chunks 0 s
  · trivial

theorem Store.exportTreeCalls_counts (d : Disk) (s : Store) (m : Manifest) :
    Counts m.chunks.length 0 (s.exportTreeCalls d m) := by
  unfold Store.exportTreeCalls
  split
  · exact Store.exportFilesCalls_counts d m m.files 0 s
  · trivial

theorem Store.exportChunks_ok_iff (d : Disk) (m : Manifest) (chunks : List ChunkRef) (i : Nat)
    (w : Bytes) (s : Store) : (Store.exportChunks d m chunks i w s).1 = .ok () ↔
      (Store.exportChunksCalls d m chunks i s).length = chunks.length := by
  induction chunks generalizing i w s with
  | nil => exact ⟨fun _ => rfl, fun _ => rfl⟩
  | cons cref chunks ih =>
    rw [Store.exportChunks, Store.exportChunksCalls]
    rcases s.get d cref.hash with ⟨e | _ | bytes, s⟩
    · simp
    · simp
    · dsimp only
      split
      · rw [ih, List.length_cons, List.length_cons, Nat.add_right_cancel_iff]
      · simp

/-- A file is exported when, and only when, the root fits and every chunk has been counted. -/
theorem Store.exportTo_ok_iff_calls (d : Disk) (s : Store) (m : Manifest) :
    (s.exportTo d m).1 = .ok () ↔
      m.rootIsConsistent = true ∧ (s.exportToCalls d m).length = m.chunks.length := by
  unfold Store.exportTo Store.exportToCalls
  by_cases h : m.rootIsConsistent = true
  · rw [if_pos h, if_pos h, Store.exportChunks_ok_iff]
    simp [h]
  · simp [h]

end

end Np2ptp
