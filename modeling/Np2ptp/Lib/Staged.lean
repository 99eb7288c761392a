import Mathlib.Logic.Function.Basic
import Np2ptp.Lib.Runs
import Np2ptp.Lib.Utf8

/-!
# Files that are replaced whole

A writer that replaces a file writes the new content under a name of its own, flushes it, and then
renames it into place. Any number of writers do so at the same time, stop anywhere, and the power
may fail: then each name shows what it showed at some earlier time, and of a file that was not
flushed nothing is known. Under a name that is never written in place there is at every time what
was there at first, or the whole content that some writer put there (`Folder.reads_whole`); and
while the power is on, it is what was put there last (`Folder.reads_last`).
-/

namespace Np2ptp.Lib

/-- A file: its bytes, and whether they have reached the disk. -/
structure FileState where
  bytes : Bytes
  synced : Bool
  deriving DecidableEq

/-- Somebody who replaces the file `target` by way of the file `tmp`. -/
structure Writer (ν : Type*) where
  tmp : ν
  target : ν
  content : Bytes
  /-- How many bytes have been handed over. -/
  written : Nat
  synced : Bool

/-- A directory, what it showed before, and who is at work in it. -/
structure Folder (ι ν : Type*) where
  files : ν → Option FileState
  past : List (ν → Option FileState)
  writers : ι → Option (Writer ν)

/-- What happens in the directory. -/
inductive Folder.Act (ι ν : Type*) where
  /-- The file under the writer's own name is created, or emptied. -/
  | create (i : ι) (tmp target : ν) (content : Bytes)
  /-- Up to so many bytes more are written. -/
  | write (i : ι) (n : Nat)
  | sync (i : ι)
  | rename (i : ι)
  /-- A writer fails, or its process ends. -/
  | abandon (i : ι)
  | remove (p : ν)
  /-- The file is moved to another name. -/
  | move (p q : ν)
  /-- The disk forgets all but the latest of what was shown before. -/
  | settle (n : Nat)
  /-- Each name shows what it showed so many changes before; `lost` is what is left of a file that
  was not flushed. -/
  | powerCut (back : ν → Nat) (lost : ν → Bytes)

variable {ι ν : Type*}

/-- What is read under a name. -/
def Folder.value (w : Folder ι ν) (p : ν) : Option Bytes := (w.files p).map FileState.bytes

/-- What a power cut leaves of a file. -/
def FileState.after (lost : Bytes) (f : FileState) : FileState :=
  if f.synced then f else ⟨lost, true⟩

/-- What the names show after a power cut. -/
def Folder.afterCut (w : Folder ι ν) (back : ν → Nat) (lost : ν → Bytes) (p : ν) :
    Option FileState :=
  (((w.files :: w.past)[back p]?.getD w.files) p).map (FileState.after (lost p))

variable [DecidableEq ι] [DecidableEq ν]

/-- The names and the writers change. -/
def Folder.shown (w : Folder ι ν) (files : ν → Option FileState)
    (writers : ι → Option (Writer ν)) : Folder ι ν := ⟨files, w.files :: w.past, writers⟩

/-- One event. -/
def Folder.step (w : Folder ι ν) : Folder.Act ι ν → Option (Folder ι ν)
  | .create i tmp target content =>
    match w.writers i with
    | some _ => none
    | none => some (w.shown (Function.update w.files tmp (some ⟨[], false⟩))
        (Function.update w.writers i (some ⟨tmp, target, content, 0, false⟩)))
  | .write i n =>
    match w.writers i with
    | none => none
    | some wr =>
      if wr.synced then none
      else
        let content := wr.content.take (wr.written + n)
        some (w.shown (Function.update w.files wr.tmp (some ⟨content, false⟩))
          (Function.update w.writers i (some { wr with written := wr.written + n })))
  | .sync i =>
    match w.writers i with
    | none => none
    | some wr =>
      if wr.content.length ≤ wr.written then
        some (w.shown (Function.update w.files wr.tmp (some ⟨wr.content, true⟩))
          (Function.update w.writers i (some { wr with synced := true })))
      else none
  | .rename i =>
    match w.writers i with
    | none => none
    | some wr =>
      if wr.synced then
        let files := Function.update w.files wr.target (w.files wr.tmp)
        some (w.shown (Function.update files wr.tmp none) (Function.update w.writers i none))
      else none
  | .abandon i => some { w with writers := Function.update w.writers i none }
  | .remove p => some (w.shown (Function.update w.files p none) w.writers)
  | .move p q =>
    let files := Function.update w.files p none
    some (w.shown (Function.update files q (w.files p)) w.writers)
  | .settle n => some { w with past := w.past.take n }
  | .powerCut back lost => some ⟨w.afterCut back lost, [], fun _ => none⟩

/-- Writers use names that are set apart for it, each a name of its own, and nothing else is done
under such names. -/
def Folder.Apart (staging : ν → Prop) (w : Folder ι ν) : Folder.Act ι ν → Prop
  | .create _ tmp target _ => staging tmp ∧ ¬ staging target ∧
      ∀ j wr, w.writers j = some wr → wr.tmp ≠ tmp
  | .remove p => ¬ staging p
  | .move p q => ¬ staging p ∧ ¬ staging q
  | _ => True

/-- What an event puts under the name, if it does: the whole content of a writer, or nothing. -/
def Folder.puts (p : ν) (w : Folder ι ν) : Folder.Act ι ν → Option (Option Bytes)
  | .rename i => (w.writers i).bind fun wr => if wr.target = p then some (some wr.content) else none
  | .remove q => if q = p then some none else none
  | .move q q' => if q' = p then some (w.value q) else if q = p then some none else none
  | _ => none

/-! ## The invariant -/

/-- Every writer's file holds what it has written, and nobody else uses its name. What is shown
under other names has reached the disk. -/
structure Folder.Neat (staging : ν → Prop) (w : Folder ι ν) : Prop where
  apart : ∀ i wr, w.writers i = some wr → staging wr.tmp ∧ ¬ staging wr.target
  own : ∀ i wr, w.writers i = some wr → ∃ f, w.files wr.tmp = some f ∧
    (wr.synced = true → f = ⟨wr.content, true⟩)
  distinct : ∀ i j wr wr', w.writers i = some wr → w.writers j = some wr' → wr.tmp = wr'.tmp →
    i = j
  flushed : ∀ dir ∈ w.files :: w.past, ∀ p f, ¬ staging p → dir p = some f → f.synced = true

variable {staging : ν → Prop} {w w' : Folder ι ν} {a : Folder.Act ι ν}

omit [DecidableEq ι] [DecidableEq ν] in
/-- A quiet directory of files that have reached the disk. -/
theorem Folder.neat_quiet {files : ν → Option FileState}
    (h : ∀ p f, files p = some f → f.synced = true) :
    (⟨files, [], fun _ => none⟩ : Folder ι ν).Neat staging := by
  refine ⟨fun _ _ hw => (by cases hw), fun _ _ hw => (by cases hw),
    fun _ _ _ _ hw => (by cases hw), fun dir hdir p f _ hf => ?_⟩
  rw [List.mem_singleton.mp hdir] at hf
  exact h p f hf

omit [DecidableEq ν] in
/-- An entry of a table in which one was written. -/
theorem eq_or_of_update {α : Type*} {f : ι → Option α} {i j : ι} {a x : α}
    (h : Function.update f i (some a) j = some x) : (j = i ∧ x = a) ∨ (j ≠ i ∧ f j = some x) := by
  by_cases hj : j = i
  · subst hj
    rw [Function.update_self, Option.some.injEq] at h
    exact .inl ⟨rfl, h.symm⟩
  · rw [Function.update_of_ne hj] at h
    exact .inr ⟨hj, h⟩

omit [DecidableEq ν] in
/-- An entry of a table from which one was removed. -/
theorem ne_of_update_none {α : Type*} {f : ι → Option α} {i j : ι} {x : α}
    (h : Function.update f i none j = some x) : j ≠ i ∧ f j = some x := by
  by_cases hj : j = i
  · subst hj
    rw [Function.update_self] at h
    cases h
  · rw [Function.update_of_ne hj] at h
    exact ⟨hj, h⟩

/-- One writer goes on with its file, the others are left alone. -/
theorem Folder.Neat.rewrite {i : ι} {wr wr' : Writer ν} {f : FileState} (h : w.Neat staging)
    (hi : w.writers i = some wr) (htmp : wr'.tmp = wr.tmp) (htarget : wr'.target = wr.target)
    (hf : wr'.synced = true → f = ⟨wr'.content, true⟩) :
    Folder.Neat staging (w.shown (Function.update w.files wr.tmp (some f))
      (Function.update w.writers i (some wr'))) := by
  refine ⟨fun j x hx => ?_, fun j x hx => ?_, fun j k x y hx hy hsame => ?_, ?_⟩
  · rcases eq_or_of_update hx with ⟨rfl, rfl⟩ | ⟨-, hx⟩
    · rw [htmp, htarget]
      exact h.apart j wr hi
    · exact h.apart j x hx
  · rcases eq_or_of_update hx with ⟨rfl, rfl⟩ | ⟨hj, hx⟩
    · refine ⟨f, ?_, hf⟩
      rw [htmp]
      exact Function.update_self _ _ _
    · obtain ⟨g, hg, hsynced⟩ := h.own j x hx
      have hne : x.tmp ≠ wr.tmp := fun he => hj (h.distinct j i x wr hx hi he)
      exact ⟨g, (Function.update_of_ne hne _ _).trans hg, hsynced⟩
  · rcases eq_or_of_update hx with ⟨rfl, rfl⟩ | ⟨-, hx'⟩
    · rcases eq_or_of_update hy with ⟨rfl, rfl⟩ | ⟨-, hy'⟩
      · rfl
      · exact h.distinct j k wr y hi hy' (htmp.symm.trans hsame)
    · rcases eq_or_of_update hy with ⟨rfl, rfl⟩ | ⟨-, hy'⟩
      · exact h.distinct j k x wr hx' hi (hsame.trans htmp)
      · exact h.distinct j k x y hx' hy' hsame
  · intro dir hdir p g hp hg
    rcases List.mem_cons.mp hdir with rfl | hdir
    · rcases eq_or_of_update hg with ⟨rfl, -⟩ | ⟨-, hg⟩
      · exact absurd (h.apart i wr hi).1 hp
      · exact h.flushed _ List.mem_cons_self p g hp hg
    · exact h.flushed dir hdir p g hp hg

omit [DecidableEq ν] in
/-- One writer less. -/
theorem Folder.Neat.without (h : w.Neat staging) (i : ι) :
    Folder.Neat staging { w with writers := Function.update w.writers i none } :=
  ⟨fun j x hx => h.apart j x (ne_of_update_none hx).2,
    fun j x hx => h.own j x (ne_of_update_none hx).2,
    fun j k x y hx hy => h.distinct j k x y (ne_of_update_none hx).2 (ne_of_update_none hy).2,
    h.flushed⟩

/-- One event keeps a directory neat. -/
theorem Folder.step_neat (h : w.Neat staging) (hok : w.Apart staging a)
    (hstep : w.step a = some w') : w'.Neat staging := by
  cases a with
  | create i tmp target content =>
    obtain ⟨hstaging, htarget, hfree⟩ := hok
    rw [Folder.step] at hstep
    split at hstep
    · cases hstep
    · cases hstep
      refine ⟨fun j x hx => ?_, fun j x hx => ?_, fun j k x y hx hy hsame => ?_, ?_⟩
      · rcases eq_or_of_update hx with ⟨rfl, rfl⟩ | ⟨-, hx⟩
        · exact ⟨hstaging, htarget⟩
        · exact h.apart j x hx
      · rcases eq_or_of_update hx with ⟨rfl, rfl⟩ | ⟨-, hx⟩
        · exact ⟨_, Function.update_self _ _ _, fun hs => (by cases hs)⟩
        · obtain ⟨f, hf, hsynced⟩ := h.own j x hx
          exact ⟨f, (Function.update_of_ne (hfree j x hx) _ _).trans hf, hsynced⟩
      · rcases eq_or_of_update hx with ⟨rfl, rfl⟩ | ⟨-, hx'⟩
        · rcases eq_or_of_update hy with ⟨rfl, rfl⟩ | ⟨-, hy'⟩
          · rfl
          · exact absurd hsame.symm (hfree k y hy')
        · rcases eq_or_of_update hy with ⟨rfl, rfl⟩ | ⟨-, hy'⟩
          · exact absurd hsame (hfree j x hx')
          · exact h.distinct j k x y hx' hy' hsame
      · intro dir hdir p g hp hg
        rcases List.mem_cons.mp hdir with rfl | hdir
        · rcases eq_or_of_update hg with ⟨rfl, -⟩ | ⟨-, hg⟩
          · exact absurd hstaging hp
          · exact h.flushed _ List.mem_cons_self p g hp hg
        · exact h.flushed dir hdir p g hp hg
  | write i n =>
    rw [Folder.step] at hstep
    split at hstep
    · cases hstep
    · next wr hwr =>
      split at hstep
      · cases hstep
      · next hsynced =>
        cases hstep
        exact h.rewrite hwr rfl rfl fun hs => absurd hs hsynced
  | sync i =>
    rw [Folder.step] at hstep
    split at hstep
    · cases hstep
    · next wr hwr =>
      split at hstep
      · cases hstep
        exact h.rewrite hwr rfl rfl fun _ => rfl
      · cases hstep
  | rename i =>
    rw [Folder.step] at hstep
    split at hstep
    · cases hstep
    · next wr hwr =>
      split at hstep
      · next hsynced =>
        cases hstep
        obtain ⟨hstaging, htarget⟩ := h.apart i wr hwr
        obtain ⟨f, hf, hwhole⟩ := h.own i wr hwr
        have hfewer := h.without i
        refine ⟨hfewer.apart, fun j x hx => ?_, hfewer.distinct, ?_⟩
        · obtain ⟨hj, hx⟩ := ne_of_update_none hx
          obtain ⟨g, hg, hs⟩ := h.own j x hx
          have htmp : x.tmp ≠ wr.tmp := fun he => hj (h.distinct j i x wr hx hwr he)
          have hne : x.tmp ≠ wr.target := fun he => htarget (he ▸ (h.apart j x hx).1)
          exact ⟨g, (Function.update_of_ne htmp _ _).trans
            ((Function.update_of_ne hne _ _).trans hg), hs⟩
        · intro dir hdir p g hp hg
          rcases List.mem_cons.mp hdir with rfl | hdir
          · obtain ⟨-, hg⟩ := ne_of_update_none hg
            rw [hf] at hg
            rcases eq_or_of_update hg with ⟨-, rfl⟩ | ⟨-, hg⟩
            · rw [hwhole hsynced]
            · exact h.flushed _ List.mem_cons_self p g hp hg
          · exact h.flushed dir hdir p g hp hg
      · cases hstep
  | abandon i =>
    cases hstep
    exact h.without i
  | remove q =>
    cases hstep
    refine ⟨h.apart, fun j x hx => ?_, h.distinct, ?_⟩
    · obtain ⟨f, hf, hs⟩ := h.own j x hx
      have hne : x.tmp ≠ q := fun he => hok (he ▸ (h.apart j x hx).1)
      exact ⟨f, (Function.update_of_ne hne _ _).trans hf, hs⟩
    · intro dir hdir p g hp hg
      rcases List.mem_cons.mp hdir with rfl | hdir
      · exact h.flushed _ List.mem_cons_self p g hp (ne_of_update_none hg).2
      · exact h.flushed dir hdir p g hp hg
  | move q q' =>
    cases hstep
    refine ⟨h.apart, fun j x hx => ?_, h.distinct, ?_⟩
    · obtain ⟨f, hf, hs⟩ := h.own j x hx
      have hne : x.tmp ≠ q := fun he => hok.1 (he ▸ (h.apart j x hx).1)
      have hne' : x.tmp ≠ q' := fun he => hok.2 (he ▸ (h.apart j x hx).1)
      exact ⟨f, (Function.update_of_ne hne' _ _).trans
        ((Function.update_of_ne hne _ _).trans hf), hs⟩
    · intro dir hdir p g hp hg
      rcases List.mem_cons.mp hdir with rfl | hdir
      · cases hf : w.files q with
        | none =>
          rw [hf] at hg
          exact h.flushed _ List.mem_cons_self p g hp
            (ne_of_update_none (ne_of_update_none hg).2).2
        | some f =>
          rw [hf] at hg
          rcases eq_or_of_update hg with ⟨-, rfl⟩ | ⟨-, hg⟩
          · exact h.flushed _ List.mem_cons_self q g hok.1 hf
          · exact h.flushed _ List.mem_cons_self p g hp (ne_of_update_none hg).2
      · exact h.flushed dir hdir p g hp hg
  | settle n =>
    cases hstep
    refine ⟨h.apart, h.own, h.distinct, fun dir hdir => h.flushed dir ?_⟩
    rcases List.mem_cons.mp hdir with rfl | hdir
    · exact List.mem_cons_self
    · exact List.mem_cons_of_mem _ (List.mem_of_mem_take hdir)
  | powerCut back lost =>
    cases hstep
    refine Folder.neat_quiet fun p f hf => ?_
    obtain ⟨g, -, rfl⟩ := Option.map_eq_some_iff.mp hf
    unfold FileState.after
    split
    · assumption
    · rfl

/-! ## What is read -/

/-- What an event shows under a name that is not for staging: what it puts there, or what was
there; after a power cut, what was there at some time. -/
theorem Folder.step_files (h : w.Neat staging) (hok : w.Apart staging a)
    (hstep : w.step a = some w') {p : ν} (hp : ¬ staging p) :
    (∀ dir ∈ w'.past, dir ∈ w.files :: w.past) ∧
      ((∃ v, w.puts p a = some v ∧ w'.value p = v) ∨
        (w.puts p a = none ∧ w'.files p = w.files p) ∨
        ((∃ back lost, a = .powerCut back lost) ∧
          ∃ dir ∈ w.files :: w.past, w'.files p = dir p)) := by
  cases a with
  | create i tmp target content =>
    rw [Folder.step] at hstep
    split at hstep
    · cases hstep
    · cases hstep
      have hne : p ≠ tmp := by
        rintro rfl
        exact hp hok.1
      exact ⟨fun dir hdir => hdir, .inr (.inl ⟨rfl, Function.update_of_ne hne _ _⟩)⟩
  | write i n =>
    rw [Folder.step] at hstep
    split at hstep
    · cases hstep
    · next wr hwr =>
      split at hstep
      · cases hstep
      · cases hstep
        have hne : p ≠ wr.tmp := by
          rintro rfl
          exact hp (h.apart i wr hwr).1
        exact ⟨fun dir hdir => hdir, .inr (.inl ⟨rfl, Function.update_of_ne hne _ _⟩)⟩
  | sync i =>
    rw [Folder.step] at hstep
    split at hstep
    · cases hstep
    · next wr hwr =>
      split at hstep
      · cases hstep
        have hne : p ≠ wr.tmp := by
          rintro rfl
          exact hp (h.apart i wr hwr).1
        exact ⟨fun dir hdir => hdir, .inr (.inl ⟨rfl, Function.update_of_ne hne _ _⟩)⟩
      · cases hstep
  | rename i =>
    rw [Folder.step] at hstep
    split at hstep
    · cases hstep
    · next wr hwr =>
      split at hstep
      · next hsynced =>
        cases hstep
        obtain ⟨hstaging, htarget⟩ := h.apart i wr hwr
        obtain ⟨f, hf, hwhole⟩ := h.own i wr hwr
        have hne : p ≠ wr.tmp := by
          rintro rfl
          exact hp hstaging
        refine ⟨fun dir hdir => hdir, ?_⟩
        by_cases hpt : wr.target = p
        · refine .inl ⟨some wr.content, ?_, ?_⟩
          · simp only [Folder.puts, hwr, Option.bind_some, if_pos hpt]
          · show (Function.update (Function.update w.files wr.target (w.files wr.tmp)) wr.tmp none
              p).map FileState.bytes = _
            rw [Function.update_of_ne hne, ← hpt, Function.update_self, hf, hwhole hsynced]
            rfl
        · refine .inr (.inl ⟨?_, ?_⟩)
          · simp only [Folder.puts, hwr, Option.bind_some, if_neg hpt]
          · exact (Function.update_of_ne hne _ _).trans
              (Function.update_of_ne (Ne.symm hpt) _ _)
      · cases hstep
  | abandon i =>
    cases hstep
    exact ⟨fun dir hdir => List.mem_cons_of_mem _ hdir, .inr (.inl ⟨rfl, rfl⟩)⟩
  | remove q =>
    cases hstep
    refine ⟨fun dir hdir => hdir, ?_⟩
    by_cases hq : q = p
    · refine .inl ⟨none, if_pos hq, ?_⟩
      show (Function.update w.files q none p).map FileState.bytes = none
      rw [hq, Function.update_self]
      rfl
    · exact .inr (.inl ⟨if_neg hq, Function.update_of_ne (Ne.symm hq) _ _⟩)
  | move q q' =>
    cases hstep
    refine ⟨fun dir hdir => hdir, ?_⟩
    by_cases hq' : q' = p
    · refine .inl ⟨w.value q, if_pos hq', ?_⟩
      rw [← hq']
      exact congrArg (Option.map FileState.bytes) (Function.update_self _ _ _)
    · have hmoved : (w.shown (Function.update (Function.update w.files q none) q' (w.files q))
          w.writers).files p = Function.update w.files q none p :=
        Function.update_of_ne (Ne.symm hq') _ _
      by_cases hq : q = p
      · refine .inl ⟨none, (if_neg hq').trans (if_pos hq), ?_⟩
        rw [Folder.value, hmoved, hq, Function.update_self]
        rfl
      · exact .inr (.inl ⟨(if_neg hq').trans (if_neg hq),
          hmoved.trans (Function.update_of_ne (Ne.symm hq) _ _)⟩)
  | settle n =>
    cases hstep
    exact ⟨fun dir hdir => List.mem_cons_of_mem _ (List.mem_of_mem_take hdir),
      .inr (.inl ⟨rfl, rfl⟩)⟩
  | powerCut back lost =>
    cases hstep
    refine ⟨fun dir hdir => absurd hdir List.not_mem_nil, .inr (.inr ⟨⟨back, lost, rfl⟩, ?_⟩)⟩
    have hmem : ((w.files :: w.past)[back p]?.getD w.files) ∈ w.files :: w.past := by
      cases hget : (w.files :: w.past)[back p]? with
      | none => exact List.mem_cons_self
      | some dir => exact List.mem_of_getElem? hget
    refine ⟨_, hmem, ?_⟩
    show (Option.map _ _) = _
    cases hdir : ((w.files :: w.past)[back p]?.getD w.files) p with
    | none => rfl
    | some f =>
      rw [Option.map_some, FileState.after, if_pos (h.flushed _ hmem p f hp hdir)]

/-- What is read is whole: after any run of writers that come, go and fail, and of power cuts,
there is under a name that is not for staging what was there at first, or what some writer put
there. -/
theorem Folder.reads_whole {as : List (Folder.Act ι ν)} (h : w.Neat staging)
    (hok : Along Folder.step (Folder.Apart staging) w as) (hrun : runs Folder.step w as = some w')
    {p : ν} (hp : ¬ staging p) (hpast : ∀ dir ∈ w.past, dir p = w.files p) :
    w'.value p = w.value p ∨ w'.value p ∈ gathered Folder.step (Folder.puts p) w as := by
  have hinv : w'.Neat staging ∧ ∀ dir ∈ w'.files :: w'.past,
      (dir p).map FileState.bytes = w.value p ∨
        (dir p).map FileState.bytes ∈ [] ++ gathered Folder.step (Folder.puts p) w as := by
    refine runs_gathered (I := fun x vs => x.Neat staging ∧ ∀ dir ∈ x.files :: x.past,
      (dir p).map FileState.bytes = w.value p ∨ (dir p).map FileState.bytes ∈ vs) ?_
      ⟨h, fun dir hdir => .inl ?_⟩ hok hrun
    · intro x a x' vs hI ha hstep
      obtain ⟨hpast', hfiles⟩ := Folder.step_files hI.1 ha hstep hp
      have hold : ∀ dir ∈ x.files :: x.past, (dir p).map FileState.bytes = w.value p ∨
          (dir p).map FileState.bytes ∈ vs ++ (x.puts p a).toList :=
        fun dir hdir => (hI.2 dir hdir).imp_right (List.mem_append_left _)
      refine ⟨Folder.step_neat hI.1 ha hstep, fun dir hdir => ?_⟩
      rcases List.mem_cons.mp hdir with rfl | hdir
      · rcases hfiles with ⟨v, hputs, hv⟩ | ⟨-, hsame⟩ | ⟨-, old, hmem, hsame⟩
        · refine .inr (List.mem_append_right _ ?_)
          rw [hputs]
          exact List.mem_singleton.mpr hv
        · rw [hsame]
          exact hold _ List.mem_cons_self
        · rw [hsame]
          exact hold old hmem
      · exact hold dir (hpast' dir hdir)
    · rcases List.mem_cons.mp hdir with rfl | hdir
      · rfl
      · rw [hpast dir hdir]
        rfl
  exact hinv.2 _ List.mem_cons_self

/-- The writers after an event are those from before, or one that has just begun. -/
theorem Folder.step_writers {P : ι → Writer ν → Prop}
    (hold : ∀ i wr, w.writers i = some wr → P i wr)
    (hnew : ∀ i tmp target content, a = .create i tmp target content →
      P i ⟨tmp, target, content, 0, false⟩)
    (hcongr : ∀ i (wr wr' : Writer ν), wr'.tmp = wr.tmp → wr'.target = wr.target →
      wr'.content = wr.content → P i wr → P i wr')
    (hstep : w.step a = some w') : ∀ i wr, w'.writers i = some wr → P i wr := by
  intro j x hx
  cases a with
  | create i tmp target content =>
    rw [Folder.step] at hstep
    split at hstep
    · cases hstep
    · cases hstep
      rcases eq_or_of_update hx with ⟨rfl, rfl⟩ | ⟨-, hx⟩
      · exact hnew j tmp target content rfl
      · exact hold j x hx
  | write i n =>
    rw [Folder.step] at hstep
    split at hstep
    · cases hstep
    · next wr hwr =>
      split at hstep
      · cases hstep
      · cases hstep
        rcases eq_or_of_update hx with ⟨rfl, rfl⟩ | ⟨-, hx⟩
        · exact hcongr j wr _ rfl rfl rfl (hold j wr hwr)
        · exact hold j x hx
  | sync i =>
    rw [Folder.step] at hstep
    split at hstep
    · cases hstep
    · next wr hwr =>
      split at hstep
      · cases hstep
        rcases eq_or_of_update hx with ⟨rfl, rfl⟩ | ⟨-, hx⟩
        · exact hcongr j wr _ rfl rfl rfl (hold j wr hwr)
        · exact hold j x hx
      · cases hstep
  | rename i =>
    rw [Folder.step] at hstep
    split at hstep
    · cases hstep
    · split at hstep
      · cases hstep
        exact hold j x (ne_of_update_none hx).2
      · cases hstep
  | abandon i =>
    cases hstep
    exact hold j x (ne_of_update_none hx).2
  | powerCut back lost =>
    cases hstep
    cases hx
  | _ =>
    cases hstep
    exact hold j x hx

/-- What is read was written by somebody: where nothing is moved to the name, there is what was
there at first, or the content of a writer that was at work for that name, or the file was taken
away. -/
theorem Folder.reads_created {as : List (Folder.Act ι ν)} (h : w.Neat staging)
    (hidle : ∀ i, w.writers i = none)
    (hok : Along Folder.step (Folder.Apart staging) w as) (hrun : runs Folder.step w as = some w')
    {p : ν} (hp : ¬ staging p) (hpast : ∀ dir ∈ w.past, dir p = w.files p)
    (hmove : ∀ q, .move q p ∉ as) :
    w'.value p = w.value p ∨
      (w'.value p = none ∧ none ∈ gathered Folder.step (Folder.puts p) w as) ∨
      ∃ i tmp content, .create i tmp p content ∈ as ∧ w'.value p = some content := by
  have hcreated : ∀ v ∈ gathered Folder.step (Folder.puts p) w as, v = none ∨
      ∃ i tmp content, .create i tmp p content ∈ as ∧ v = some content := by
    have hlisted : Along Folder.step (fun _ a => a ∈ as) w as := along_of_mem w fun _ ha => ha
    refine forall_gathered_iff.mpr (Along.mono ?_ (Along.invariant
      (I := fun x => ∀ i wr, x.writers i = some wr → .create i wr.tmp wr.target wr.content ∈ as)
      ?_ ?_ hlisted))
    · rintro x a ⟨hI, ha⟩ v hv
      cases a with
      | rename i =>
        obtain ⟨wr, hwr, hput⟩ := Option.bind_eq_some_iff.mp hv
        split at hput
        · next heq =>
          cases hput
          exact .inr ⟨i, wr.tmp, wr.content, heq ▸ hI i wr hwr, rfl⟩
        · cases hput
      | remove q =>
        rw [Folder.puts] at hv
        split at hv
        · cases hv
          exact .inl rfl
        · cases hv
      | move q q' =>
        rw [Folder.puts] at hv
        split at hv
        · next heq => exact absurd (heq ▸ ha) (hmove q)
        · split at hv
          · cases hv
            exact .inl rfl
          · cases hv
      | _ => cases hv
    · intro x a x' hI ha hstep
      refine Folder.step_writers hI ?_ ?_ hstep
      · rintro i tmp target content rfl
        exact ha
      · intro i wr wr' htmp htarget hcontent hwr
        rw [htmp, htarget, hcontent]
        exact hwr
    · intro i wr hwr
      rw [hidle i] at hwr
      cases hwr
  rcases Folder.reads_whole h hok hrun hp hpast with hfirst | hput
  · exact .inl hfirst
  · rcases hcreated _ hput with hnone | hsome
    · exact .inr (.inl ⟨hnone, hnone ▸ hput⟩)
    · exact .inr (.inr hsome)

/-- While the power is on. -/
def Folder.Act.Powered : Folder.Act ι ν → Prop
  | .powerCut _ _ => False
  | _ => True

/-- What is read was put there last, as long as the power is on. -/
theorem Folder.reads_last {as : List (Folder.Act ι ν)} (h : w.Neat staging)
    (hok : Along Folder.step (Folder.Apart staging) w as) (hpower : ∀ a ∈ as, a.Powered)
    (hrun : runs Folder.step w as = some w') {p : ν} (hp : ¬ staging p) :
    w'.value p = (gathered Folder.step (Folder.puts p) w as).getLast?.getD (w.value p) := by
  induction as generalizing w with
  | nil =>
    cases hrun
    rfl
  | cons a as ih =>
    obtain ⟨x, hx, hrest⟩ := runs_cons.mp hrun
    have hneat := Folder.step_neat h hok.1 hx
    rw [ih hneat (hok.2 x hx) (fun b hb => hpower b (List.mem_cons_of_mem _ hb)) hrest, gathered,
      hx, List.getLast?_append]
    dsimp only
    cases hlast : (gathered Folder.step (Folder.puts p) x as).getLast? with
    | some v => rfl
    | none =>
      rcases (Folder.step_files h hok.1 hx hp).2 with ⟨v, hputs, hv⟩ | ⟨hputs, hsame⟩ |
        ⟨⟨back, lost, rfl⟩, -⟩
      · rw [hputs]
        exact hv
      · rw [hputs]
        exact congrArg (Option.map FileState.bytes) hsame
      · exact absurd (hpower _ List.mem_cons_self) id

/-! ## Writers with names of their own -/

/-- The names that some writer may stage under. -/
def Folder.Staging (names : ι → ν → Prop) (p : ν) : Prop := ∃ i, names i p

/-- Writers stage under names of their own what may be in the file, and files are removed and moved
without regard to them. -/
def Folder.Acts (names : ι → ν → Prop) (may : ν → Bytes → Prop) : Folder.Act ι ν → Prop
  | .create i tmp target content => names i tmp ∧ ¬ Folder.Staging names target ∧ may target content
  | .remove p => ¬ Folder.Staging names p
  | .move p q => ¬ Folder.Staging names p ∧ ¬ Folder.Staging names q ∧
      ∀ bytes, may p bytes → may q bytes
  | _ => True

/-- Writers keep to this, and whatever is shown under another name may be there, now and when the
power fails. -/
structure Folder.Sound (names : ι → ν → Prop) (may : ν → Bytes → Prop) (w : Folder ι ν) :
    Prop where
  neat : w.Neat (Folder.Staging names)
  named : ∀ i wr, w.writers i = some wr → names i wr.tmp ∧ may wr.target wr.content
  holds : ∀ dir ∈ w.files :: w.past, ∀ p x, ¬ Folder.Staging names p → dir p = some x →
    may p x.bytes

variable {names : ι → ν → Prop} {may : ν → Bytes → Prop}

omit [DecidableEq ι] [DecidableEq ν] in
/-- A quiet directory of files that may be there. -/
theorem Folder.sound_quiet {w : Folder ι ν} (hpast : w.past = []) (hidle : ∀ i, w.writers i = none)
    (hsynced : ∀ p x, w.files p = some x → x.synced = true)
    (hmay : ∀ p x, ¬ Folder.Staging names p → w.files p = some x → may p x.bytes) :
    w.Sound names may := by
  obtain ⟨files, past, writers⟩ := w
  obtain rfl : past = [] := hpast
  obtain rfl : writers = fun _ => none := funext hidle
  refine ⟨Folder.neat_quiet hsynced, fun i wr hw => (by cases hw), fun dir hdir p x hp hx => ?_⟩
  rw [List.mem_singleton.mp hdir] at hx
  exact hmay p x hp hx

/-- Writers with names of their own stay apart. -/
theorem Folder.Sound.apart (hown : ∀ i j p, names i p → names j p → i = j)
    (h : w.Sound names may) (hok : Folder.Acts names may a) (hstep : w.step a = some w') :
    w.Apart (Folder.Staging names) a := by
  cases a with
  | create i tmp target content =>
    obtain ⟨hname, htarget, -⟩ := hok
    refine ⟨⟨i, hname⟩, htarget, fun j wr hj he => ?_⟩
    obtain rfl := hown j i tmp (he ▸ (h.named j wr hj).1) hname
    rw [Folder.step, hj] at hstep
    cases hstep
  | remove p => exact hok
  | move p q => exact ⟨hok.1, hok.2.1⟩
  | _ => trivial

/-- One event leaves nothing that may not be there. -/
theorem Folder.step_sound (hown : ∀ i j p, names i p → names j p → i = j)
    (h : w.Sound names may) (hok : Folder.Acts names may a) (hstep : w.step a = some w') :
    w'.Sound names may := by
  have hapart := h.apart hown hok hstep
  refine ⟨Folder.step_neat h.neat hapart hstep, ?_, fun dir hdir p x hp hx => ?_⟩
  · refine Folder.step_writers h.named ?_ ?_ hstep
    · rintro i tmp target content rfl
      exact ⟨hok.1, hok.2.2⟩
    · intro i wr wr' htmp htarget hcontent hwr
      rw [htmp, htarget, hcontent]
      exact hwr
  · obtain ⟨hpast, hfiles⟩ := Folder.step_files h.neat hapart hstep hp
    rcases List.mem_cons.mp hdir with rfl | hdir
    · rcases hfiles with ⟨v, hv, hvalue⟩ | ⟨-, hsame⟩ | ⟨-, old, hmem, hsame⟩
      · rw [Folder.value, hx, Option.map_some] at hvalue
        cases a with
        | rename i =>
          obtain ⟨wr, hwr, hput⟩ := Option.bind_eq_some_iff.mp hv
          split at hput
          · next heq =>
            cases hput
            rw [Option.some.inj hvalue, ← heq]
            exact (h.named i wr hwr).2
          · cases hput
        | remove q =>
          rw [Folder.puts] at hv
          split at hv
          · cases hv
            cases hvalue
          · cases hv
        | move q q' =>
          rw [Folder.puts] at hv
          split at hv
          · next heq =>
            have hmoved := (Option.some.inj hv).trans hvalue.symm
            obtain ⟨y, hy, hbytes⟩ := Option.map_eq_some_iff.mp hmoved
            rw [← heq, ← hbytes]
            exact hok.2.2 _ (h.holds _ List.mem_cons_self q y hok.1 hy)
          · split at hv
            · cases hv
              cases hvalue
            · cases hv
        | _ => cases hv
      · exact h.holds _ List.mem_cons_self p x hp (hsame ▸ hx)
      · exact h.holds old hmem p x hp (hsame ▸ hx)
    · exact h.holds dir (hpast dir hdir) p x hp hx

/-- A run of writers with names of their own. -/
theorem Folder.Sound.kept (hown : ∀ i j p, names i p → names j p → i = j)
    {as : List (Folder.Act ι ν)} (h : w.Sound names may)
    (hok : Along Folder.step (fun _ a => Folder.Acts names may a) w as)
    (hrun : runs Folder.step w as = some w') :
    w'.Sound names may ∧ Along Folder.step (Folder.Apart (Folder.Staging names)) w as := by
  refine ⟨runs_invariant (fun _ _ _ hI ha hs => Folder.step_sound hown hI ha hs) h hok hrun, ?_⟩
  have hboth : Along Folder.step
      (fun w a => Folder.Acts names may a ∧ w.Apart (Folder.Staging names) a) w as :=
    (along_iff (fun _ _ _ hI hs => ⟨And.left, fun ha => ⟨ha, hI.apart hown ha hs⟩⟩)
      (fun _ _ _ hI ha hs => Folder.step_sound hown hI ha hs) h hrun).mpr hok
  exact hboth.mono fun _ _ => And.right

/-! ## One replacement -/

/-- Where a replacement can fail. -/
inductive Folder.Fault where
  | create
  /-- After so many bytes. -/
  | write (n : Nat)
  | sync
  | rename
  deriving DecidableEq

/-- What one writer does from its beginning to its end, or up to where it fails. -/
def Folder.replace (i : ι) (tmp target : ν) (content : Bytes) :
    Option Folder.Fault → List (Folder.Act ι ν)
  | none => [.create i tmp target content, .write i content.length, .sync i, .rename i]
  | some .create => []
  | some (.write n) => [.create i tmp target content, .write i n, .abandon i]
  | some .sync => [.create i tmp target content, .write i content.length, .abandon i]
  | some .rename => [.create i tmp target content, .write i content.length, .sync i, .abandon i]

omit [DecidableEq ι] [DecidableEq ν] in
/-- A replacement begins with its file, and all that follows is its writer's. -/
theorem Folder.mem_replace {i : ι} {tmp target : ν} {content : Bytes}
    {fault : Option Folder.Fault} (h : a ∈ Folder.replace i tmp target content fault) :
    a = .create i tmp target content ∨ (∃ n, a = .write i n) ∨ a = .sync i ∨ a = .rename i ∨
      a = .abandon i := by
  cases fault with
  | none =>
    simp only [Folder.replace, List.mem_cons, List.not_mem_nil, or_false] at h
    rcases h with rfl | rfl | rfl | rfl <;> simp
  | some fault =>
    cases fault with
    | create => cases h
    | write n =>
      simp only [Folder.replace, List.mem_cons, List.not_mem_nil, or_false] at h
      rcases h with rfl | rfl | rfl <;> simp
    | sync =>
      simp only [Folder.replace, List.mem_cons, List.not_mem_nil, or_false] at h
      rcases h with rfl | rfl | rfl <;> simp
    | rename =>
      simp only [Folder.replace, List.mem_cons, List.not_mem_nil, or_false] at h
      rcases h with rfl | rfl | rfl | rfl <;> simp

/-- A writer that is not at work can replace a file. It is at rest again afterwards, nobody else is
concerned, and a replacement that does not fail is the one that puts something in place. -/
theorem Folder.runs_replace {i : ι} (hidle : w.writers i = none) (tmp target p : ν)
    (content : Bytes) (fault : Option Folder.Fault) :
    ∃ w', runs Folder.step w (Folder.replace i tmp target content fault) = some w' ∧
      w'.writers = w.writers ∧
      gathered Folder.step (Folder.puts p) w (Folder.replace i tmp target content fault) =
        if fault = none ∧ target = p then [some content] else [] := by
  have hrest : Function.update w.writers i none = w.writers := by
    rw [← hidle, Function.update_eq_self]
  cases fault with
  | none =>
    by_cases hp : target = p <;>
      simp [Folder.replace, runs, gathered, Folder.step, Folder.puts, Folder.shown, hidle, hrest,
        hp]
  | some fault =>
    cases fault <;>
      simp [Folder.replace, runs, gathered, Folder.step, Folder.puts, Folder.shown, hidle, hrest]

end Np2ptp.Lib
