import Np2ptp.Lib.Runs
import Np2ptp.Store.Sound

/-!
# Histories of calls

Several handles on one directory, used one call at a time: opening, every ingest, `put`, `has` and
`get`, and in between anything may happen to the source files outside the store. Every directory and
every handle that such a history reaches is sound (`World.sound_of_runs`), and for a sound handle
what `get` returns is known from what the handle and the directory hold (`Store.get_ok_iff`).
-/

namespace Np2ptp

open Lib

/-- A directory and the handles that were opened on it. -/
structure World where
  disk : Disk
  handles : List Store

/-- A call on the handle `i`, an opening, or a change of the source files. -/
inductive Call where
  | open
  | put (i : Nat) (bytes : Bytes)
  | ingest (i : Nat) (data : Bytes) (name : Option Text)
  | ingestTree (i : Nat) (files : List (Text × Bytes)) (name : Option Text)
  | ingestFileStreaming (i : Nat) (path : Bytes) (noCopy : Bool)
  | ingestTreeFiles (i : Nat) (files : List (Text × Bytes)) (name : Option Text) (noCopy : Bool)
  | has (i : Nat) (h : Hash)
  | get (i : Nat) (h : Hash)
  | edit (sources : HashMap Bytes Source) (canonicalize : Bytes → Option Bytes)

/-- A call on the handle `i`, if it is there. -/
def World.onHandle (w : World) (i : Nat) (f : Disk → Store → Disk × Store) : Option World :=
  match w.handles[i]? with
  | none => none
  | some s => some ⟨(f w.disk s).1, w.handles.set i (f w.disk s).2⟩

/-- The directory before its first use by this version of the store: chunks may lie in the old
layout. -/
def Disk.fresh (objects : HashMap Hash Bytes) (sources : HashMap Bytes Source)
    (canonicalize : Bytes → Option Bytes) : Disk :=
  ⟨[], [], ∅, objects, sources, canonicalize⟩

section

variable [Blake3] [FastCDC]

/-- A handle on an empty directory. -/
def Store.fresh : Store := ⟨∅, ∅, 0, 0, ⟨0, 0⟩⟩

/-- One call. -/
def World.step (w : World) : Call → Option World
  | .open =>
    match Store.open w.disk with
    | (.ok s, d) => some ⟨d, w.handles ++ [s]⟩
    | (.error _, d) => some ⟨d, w.handles⟩
  | .put i bytes => w.onHandle i fun d s => (s.put d bytes).2
  | .ingest i data name => w.onHandle i fun d s => (s.ingest d data name).2
  | .ingestTree i files name => w.onHandle i fun d s => (s.ingestTree d files name).2
  | .ingestFileStreaming i path noCopy =>
    w.onHandle i fun d s => (s.ingestFileStreaming d path noCopy).2
  | .ingestTreeFiles i files name noCopy =>
    w.onHandle i fun d s => (s.ingestTreeFiles d files name noCopy).2
  | .has i h => w.onHandle i fun d s => (d, (s.has d h).2)
  | .get i h => w.onHandle i fun d s => (d, (s.get d h).2)
  | .edit sources canonicalize =>
    some { w with disk := { w.disk with sources := sources, canonicalize := canonicalize } }

/-- A sound directory with sound handles. -/
structure World.Sound (w : World) : Prop where
  disk : w.disk.Sound
  objects : w.disk.ObjectsIntact
  handles : ∀ s ∈ w.handles, s.Sound w.disk

omit [Blake3] [FastCDC] in
/-- A handle on an empty directory has read all of it. -/
theorem Store.sound_fresh {objects : HashMap Hash Bytes} {sources : HashMap Bytes Source}
    {canonicalize : Bytes → Option Bytes} :
    Store.fresh.Sound (Disk.fresh objects sources canonicalize) where
  index := ⟨Nat.zero_le _, terminated_nil, by simp [Disk.fresh, entries, pieces]⟩
  refs := ⟨Nat.zero_le _, terminated_nil, by simp [Disk.fresh, entries, pieces]⟩
  listed := by simp [Store.fresh]

omit [FastCDC] in
/-- A fresh directory with intact old chunks is sound. -/
theorem World.sound_fresh {objects : HashMap Hash Bytes} {sources : HashMap Bytes Source}
    {canonicalize : Bytes → Option Bytes}
    (h : ∀ g bytes, objects.lookup g = some bytes → Hash.of bytes = g) :
    World.Sound ⟨Disk.fresh objects sources canonicalize, []⟩ :=
  ⟨⟨rfl, terminated_nil, rfl, terminated_nil, by simp [Disk.fresh, entries, pieces],
    by simp [Disk.fresh, entries, pieces]⟩, h, by simp⟩

omit [Blake3] [FastCDC] in
/-- A handle that has loaded both sidecars and stands at their ends. -/
theorem Store.sound_loaded {d : Disk} (hindex : Terminated LF d.index)
    (hrefs : Terminated LF d.refsTsv) (p : PackState) :
    Store.Sound d ⟨insertAll ∅ (refEntries d.refsTsv), insertAll ∅ (packEntries d.index),
      d.index.length, d.refsTsv.length, p⟩ := by
  refine ⟨⟨Nat.le_refl _, ?_, ?_⟩, ⟨Nat.le_refl _, ?_, ?_⟩, ?_⟩
  · exact (List.take_length (l := d.index)).symm ▸ hindex
  · intro e he
    exact mem_insertAll.mpr (.inr ⟨e.2, (List.take_length (l := d.index)) ▸ he⟩)
  · exact (List.take_length (l := d.refsTsv)).symm ▸ hrefs
  · intro e he
    exact mem_insertAll.mpr (.inr ⟨e.2, (List.take_length (l := d.refsTsv)) ▸ he⟩)
  · intro h loc hl
    rcases lookup_insertAll hl with hl | hl
    · simp at hl
    · exact hl

omit [FastCDC] in
/-- Opening a sound directory gives a sound handle that knows the whole index. -/
theorem Store.open_sound {d : Disk} (hd : d.Sound) : ∃ s d', Store.open d = (.ok s, d') ∧
    d' = { d with packs := d'.packs } ∧ d.Extends d' ∧ s.Sound d' ∧
      s.packIndex = insertAll ∅ (packEntries d.index) ∧
    s.refs = insertAll ∅ (refEntries d.refsTsv) := by
  have hloaded := Store.sound_loaded hd.indexClosed hd.refsClosed (PackState.open d).1
  refine ⟨_, (PackState.open d).2,
    Store.open_eq hd.indexText hd.indexClosed hd.refsText hd.refsClosed, rfl, .of_packs ?_,
    ⟨hloaded.index, hloaded.refs, hloaded.listed⟩, rfl, rfl⟩
  have h := PacksGrow.insert d.packs (PackState.open d).1.currentId []
  rwa [List.append_nil] at h

omit [FastCDC] in
/-- Calls one after another keep the directory, their own handle and every other handle sound. -/
theorem Prim.runAll_sound (ps : List Prim) : ∀ {d : Disk} {s : Store}, d.Sound → s.Sound d →
    (Prim.runAll d s ps).1.Sound ∧ (Prim.runAll d s ps).2.Sound (Prim.runAll d s ps).1 ∧
      (Prim.runAll d s ps).1.objects = d.objects ∧
      ∀ t : Store, t.Sound d → t.Sound (Prim.runAll d s ps).1 := by
  induction ps with
  | nil => exact fun hd hs => ⟨hd, hs, rfl, fun _ ht => ht⟩
  | cons p ps ih =>
    intro d s hd hs
    obtain ⟨hext, hown⟩ := Prim.run_sound hd hs p
    obtain ⟨hd', hs', hobj, hothers⟩ := ih (hd.extend hext) hown
    exact ⟨hd', hs', hobj.trans hext.objects, fun t ht => hothers t (ht.extend hd hext)⟩

omit [FastCDC] in
/-- What calls on one handle leave of a sound world is sound. -/
theorem World.Sound.onHandle {w w' : World} {i : Nat} {f : Disk → Store → Disk × Store}
    (hw : w.Sound) (h : w.onHandle i f = some w')
    (hf : ∀ s, ∃ ps, f w.disk s = Prim.runAll w.disk s ps) : w'.Sound := by
  unfold World.onHandle at h
  split at h
  · cases h
  · next s hs =>
    cases h
    obtain ⟨ps, hps⟩ := hf s
    obtain ⟨hd, hown, hobj, hothers⟩ :=
      Prim.runAll_sound ps hw.disk (hw.handles s (List.mem_of_getElem? hs))
    rw [hps]
    refine ⟨hd, fun g b hl => hw.objects g b (hobj ▸ hl), fun t ht => ?_⟩
    rcases List.mem_or_eq_of_mem_set ht with ht | rfl
    · exact hothers t (hw.handles t ht)
    · exact hown

omit [FastCDC] in
theorem IsSteps.runAll {P : Bytes → Prop} {d : Disk} {s : Store} {b : Disk × Store}
    (h : IsSteps P (d, s) b) : ∃ ps, b = Prim.runAll d s ps := by
  obtain ⟨ps, rfl, -⟩ := h
  exact ⟨ps, rfl⟩

/-- One call keeps a world sound. -/
theorem World.step_sound (w : World) (c : Call) (w' : World) (hw : w.Sound)
    (h : w.step c = some w') : w'.Sound := by
  cases c with
  | «open» =>
    obtain ⟨s, d', he, -, hext, hs, -⟩ := Store.open_sound hw.disk
    simp only [World.step, he, Option.some.injEq] at h
    subst h
    refine ⟨hw.disk.extend hext, fun g b hl => hw.objects g b (hext.objects ▸ hl), fun t ht => ?_⟩
    rcases List.mem_append.mp ht with ht | ht
    · exact (hw.handles t ht).extend hw.disk hext
    · rw [List.mem_singleton.mp ht]
      exact hs
  | put i bytes =>
    simp only [World.step] at h
    exact hw.onHandle h fun s => ⟨[.put bytes], rfl⟩
  | ingest i data name =>
    simp only [World.step] at h
    exact hw.onHandle h fun s => (ingest_isSteps (P := fun _ => True)).runAll
  | ingestTree i files name =>
    simp only [World.step] at h
    exact hw.onHandle h fun s => (ingestTree_isSteps (P := fun _ => True)).runAll
  | ingestFileStreaming i path noCopy =>
    simp only [World.step] at h
    exact hw.onHandle h fun s =>
      (ingestFileStreaming_isSteps (P := fun _ => True) fun _ _ _ => trivial).runAll
  | ingestTreeFiles i files name noCopy =>
    simp only [World.step] at h
    exact hw.onHandle h fun s =>
      (ingestTreeFiles_isSteps (P := fun _ => True) fun _ _ _ _ _ => trivial).runAll
  | has i g =>
    simp only [World.step] at h
    exact hw.onHandle h fun s => ⟨[.has g], rfl⟩
  | get i g =>
    simp only [World.step] at h
    exact hw.onHandle h fun s => ⟨[.get g], rfl⟩
  | edit sources canonicalize =>
    cases h
    obtain ⟨hd, ho, hs⟩ := hw
    exact ⟨⟨hd.1, hd.2, hd.3, hd.4, hd.5, hd.6⟩, ho, fun t ht => ⟨(hs t ht).1, (hs t ht).2,
      (hs t ht).3⟩⟩

/-- Every history keeps a world sound. -/
theorem World.sound_of_runs {w w' : World} {cs : List Call} (hw : w.Sound)
    (h : runs World.step w cs = some w') : w'.Sound :=
  runs_invariant' (fun w c w' hw hstep => World.step_sound w c w' hw hstep) hw h

end

end Np2ptp
