import Np2ptp.Node.Output
import Np2ptp.Store.OutputDir

/-!
# What a refused manifest leaves behind

`export_tree_to_dir` and `write_tree` check each path before they push it, inside the loop that
creates the directories and the files, and an index that is out of range is met when the file is
there already. So a refusal leaves what was written for the entries before it, and for the index
also the file of the entry itself. `Store.Refused` lists what that is, and the output directory is
as it was exactly where all of it was there before (`refused_untouched_iff`).
-/

namespace Np2ptp

open Lib

/-! ## Trees on their directory -/

/-- How `write_tree` fails. -/
inductive TreeError where
  | unsafePath (rel : Text)
  | io
  deriving DecidableEq

section

variable (refuses : List Bytes → Bool)

/-- `write_tree`, on the output directory. -/
def writeTreeInto : List (Text × Bytes) → OutputTree → Option TreeError × OutputTree
  | [], t => (none, t)
  | (rel, bytes) :: files, t =>
    match validateRelativePath rel.bytes with
    | .error _ => (some (.unsafePath rel), t)
    | .ok () =>
      match land refuses t rel.bytes bytes with
      | (true, t) => writeTreeInto files t
      | (false, t) => (some .io, t)

variable {refuses}

/-- The files before the first that is refused. -/
def leading (files : List (Text × Bytes)) : List (Text × Bytes) :=
  files.takeWhile fun f => (validateRelativePath f.1.bytes).isOk

/-- The directory refines the list: the same path is refused, and what comes before it has landed,
or the platform failed. -/
theorem writeTreeInto_spec (out : Bytes) (files : List (Text × Bytes)) (t : OutputTree) :
    (∃ t', landAll refuses t (leading files) = (true, t') ∧
      writeTreeInto refuses files t = ((writeTree out files).1.map .unsafePath, t')) ∨
    (writeTreeInto refuses files t).1 = some .io := by
  induction files generalizing t with
  | nil => exact .inl ⟨t, rfl, rfl⟩
  | cons f files ih =>
    obtain ⟨rel, bytes⟩ := f
    rw [writeTreeInto, writeTree, leading]
    cases hpath : validateRelativePath rel.bytes with
    | error e =>
      rw [List.takeWhile_cons_of_neg (by rw [hpath]; exact Bool.false_ne_true)]
      exact .inl ⟨t, rfl, rfl⟩
    | ok u =>
      rw [List.takeWhile_cons_of_pos (by rw [hpath]; rfl), landAll]
      rcases land refuses t rel.bytes bytes with ⟨_ | _, t1⟩
      · exact .inr rfl
      · exact ih t1

end

section

variable [Blake3]

/-! ## Why an export refuses -/

/-- An export refuses a manifest with an error, the files being written by then. -/
inductive Store.Refused (d : Disk) (m : Manifest) (s : Store) :
    StoreError → List (Text × Bytes) → Prop
  /-- The path of an entry does not pass the check. -/
  | unsafePath {before after : List FileEntry} {entry : FileEntry} {written : List (Text × Bytes)}
      {s1 : Store} (root : m.rootIsConsistent = true) (split : m.files = before ++ entry :: after)
      (passed : ∀ e ∈ before, e.PathOk ∧ e.Fits)
      (read : Store.readFiles d m before s = (some written, s1)) (escapes : ¬ entry.PathOk) :
      Store.Refused d m s (.unsafePath entry.path) written
  /-- The range of an entry leads on to an index that the chunk list does not have. -/
  | outOfRange {before after : List FileEntry} {entry : FileEntry} {written : List (Text × Bytes)}
      {s1 s2 : Store} {k : Nat} {part : Bytes} (root : m.rootIsConsistent = true)
      (split : m.files = before ++ entry :: after) (passed : ∀ e ∈ before, e.PathOk ∧ e.Fits)
      (read : Store.readFiles d m before s = (some written, s1)) (path : entry.PathOk)
      (fits : entry.Fits) (inside : k < entry.chunkCount.toNat)
      (listed : Store.readRange d m k entry.chunkStart.toNat s1 = (some part, s2))
      (missing : m.chunks[entry.chunkStart.toNat + k]? = none) :
      Store.Refused d m s (.corrupt m.root) (written ++ [(entry.path, part)])

/-- A range that is read up to an index out of range ends there. -/
theorem Store.exportRange_of_missing {d : Disk} {m : Manifest} {k : Nat} :
    ∀ {count ci : Nat} {w part : Bytes} {s s' : Store}, k < count →
      Store.readRange d m k ci s = (some part, s') → m.chunks[ci + k]? = none →
      Store.exportRange d m count ci w s = (.err (.corrupt m.root), w ++ part, s') := by
  induction k with
  | zero =>
    intro count ci w part s s' hk hread hmissing
    cases hread
    obtain ⟨count, rfl⟩ := Nat.exists_eq_succ_of_ne_zero hk.ne'
    rw [Store.exportRange]
    simp only [Nat.add_zero] at hmissing
    simp only [hmissing, List.append_nil]
  | succ k ih =>
    intro count ci w part s s' hk hread hmissing
    obtain ⟨count, rfl⟩ := Nat.exists_eq_succ_of_ne_zero (Nat.ne_zero_of_lt hk)
    obtain ⟨cref, b, rest, s1, hc, hg, hr, rfl⟩ := Store.readRange_succ_some hread
    rw [Store.exportRange]
    simp only [hc, hg, Manifest.chunkHashOk_of_get hc hg, if_true]
    rw [ih (Nat.lt_of_succ_lt_succ hk) hr (by rwa [Nat.add_right_comm, Nat.add_assoc]),
      List.append_assoc]

/-- An entry is exported where its range does not overflow and is read. -/
theorem Store.exportEntry_ok_iff {d : Disk} {m : Manifest} {entry : FileEntry} {bytes : Bytes}
    {s s' : Store} : Store.exportEntry d m entry s = (.ok, bytes, s') ↔ entry.Fits ∧
      Store.readRange d m entry.chunkCount.toNat entry.chunkStart.toNat s = (some bytes, s') := by
  unfold Store.exportEntry
  constructor
  · intro h
    split at h
    · cases h
    · next hfits => exact ⟨Nat.lt_of_not_le hfits, Store.read_of_exportRange h⟩
  · rintro ⟨hfits, hread⟩
    rw [if_neg (Nat.not_le.mpr hfits), Store.exportRange_of_read hread, List.nil_append]

/-- Entries that pass and are read are written, and the export goes on after them. -/
theorem Store.exportFiles_append {d : Disk} {m : Manifest} {before : List FileEntry}
    (rest : List FileEntry) {acc written : List (Text × Bytes)} {s s' : Store}
    (hpassed : ∀ e ∈ before, e.PathOk ∧ e.Fits)
    (hread : Store.readFiles d m before s = (some written, s')) :
    Store.exportFiles d m (before ++ rest) acc s =
      Store.exportFiles d m rest (acc ++ written) s' := by
  induction before generalizing acc written s with
  | nil =>
    cases hread
    rw [List.nil_append, List.append_nil]
  | cons entry before ih =>
    obtain ⟨bytes, more, s1, hr, hf, rfl⟩ := Store.readFiles_cons_some.mp hread
    obtain ⟨hpath, hfits⟩ := hpassed entry List.mem_cons_self
    have hentry := Store.exportEntry_ok_iff.mpr ⟨hfits, hr⟩
    rw [List.cons_append, Store.exportFiles_cons hpath _ acc hentry, if_pos rfl,
      ih (fun e he => hpassed e (List.mem_cons_of_mem _ he)) hf, List.append_assoc]
    rfl

/-- What is refused ends the export, with what `Store.Refused` says is written. -/
theorem Store.Refused.export {d : Disk} {m : Manifest} {s : Store} {e : StoreError}
    {written : List (Text × Bytes)} (h : s.Refused d m e written) :
    ∃ s', s.exportTreeToDir d m = (.err e, written, s') := by
  unfold Store.exportTreeToDir
  cases h with
  | @unsafePath before after entry written s1 root split passed read escapes =>
    refine ⟨s1, ?_⟩
    rw [if_pos root, split, Store.exportFiles_append _ passed read, Store.exportFiles]
    unfold FileEntry.PathOk at escapes
    cases hpath : validateRelativePath entry.path.bytes with
    | error _ => rfl
    | ok u => exact absurd hpath escapes
  | @outOfRange before after entry written s1 s2 k part root split passed read path fits inside
      listed missing =>
    refine ⟨s2, ?_⟩
    have hentry : Store.exportEntry d m entry s1 = (.err (.corrupt m.root), part, s2) := by
      unfold Store.exportEntry
      rw [if_neg (Nat.not_le.mpr fits), Store.exportRange_of_missing inside listed missing,
        List.nil_append]
    rw [if_pos root, split, Store.exportFiles_append _ passed read,
      Store.exportFiles_cons path _ _ hentry, if_neg Outcome.noConfusion, List.nil_append]

theorem checkRead_ne {h : Hash} {o : Option Bytes} {path : Text} :
    checkRead h o ≠ .error (.unsafePath path) := by
  intro e
  unfold checkRead at e
  split at e
  · cases e
  · split at e <;> cases e

/-- A read does not complain of a path. -/
theorem Store.get_ne {d : Disk} {s s' : Store} {h : Hash} {path : Text} :
    s.get d h ≠ (.error (.unsafePath path), s') := by
  have hpack (s : Store) : s.getFromPackIndex d h ≠ .error (.unsafePath path) := by
    intro e
    unfold Store.getFromPackIndex at e
    split at e
    · cases e
    · exact checkRead_ne e
  intro e
  unfold Store.get at e
  split at e
  · next e' hp =>
    cases e
    exact hpack s hp
  · cases e
  · split at e
    · next ho =>
      cases e
      unfold Disk.getObject at ho
      split at ho
      · cases ho
      · exact checkRead_ne ho
    · cases e
    · split at e
      · next hr =>
        cases e
        unfold Store.getReference at hr
        split at hr
        · cases hr
        · split at hr
          · cases hr
          · cases hr
          · exact checkRead_ne hr
      · cases e
      · split at e
        · cases e
        · exact hpack _ (Prod.mk.inj e).1

/-- What is done for an entry once its file is created does not complain of a path. -/
theorem Store.exportEntry_ne {d : Disk} {m : Manifest} {entry : FileEntry} {path : Text}
    {s : Store} : (Store.exportEntry d m entry s).1 ≠ .err (.unsafePath path) := by
  have hrange (count ci : Nat) (w : Bytes) (s : Store) :
      (Store.exportRange d m count ci w s).1 ≠ .err (.unsafePath path) := by
    induction count generalizing ci w s with
    | zero => exact Outcome.noConfusion
    | succ count ih =>
      intro h
      rw [Store.exportRange] at h
      split at h
      · cases h
      · split at h
        · next hg =>
          cases h
          exact Store.get_ne hg
        · cases h
        · split at h
          · exact ih _ _ _ h
          · cases h
  unfold Store.exportEntry
  split
  · exact Outcome.noConfusion
  · exact hrange _ _ _ _

/-- An export that complains of a path has come to an entry whose path fails the check. -/
theorem Store.exportFiles_unsafePath {d : Disk} {m : Manifest} {path : Text}
    {files : List FileEntry} {acc out : List (Text × Bytes)} {s s' : Store}
    (h : Store.exportFiles d m files acc s = (.err (.unsafePath path), out, s')) :
    ∃ before entry after written, files = before ++ entry :: after ∧
      (∀ e ∈ before, e.PathOk ∧ e.Fits) ∧
      Store.readFiles d m before s = (some written, s') ∧ ¬ entry.PathOk ∧ path = entry.path := by
  induction files generalizing acc s with
  | nil => cases h
  | cons entry files ih =>
    cases hpath : validateRelativePath entry.path.bytes with
    | error e =>
      rw [Store.exportFiles, hpath] at h
      cases h
      refine ⟨[], entry, files, [], rfl, by simp, rfl, fun hok => ?_, rfl⟩
      cases hpath.symm.trans hok
    | ok u =>
      rcases hentry : Store.exportEntry d m entry s with ⟨r, w, s1⟩
      rw [Store.exportFiles_cons hpath files acc hentry] at h
      by_cases hr : r = .ok
      · subst hr
        obtain ⟨hfits, hread⟩ := Store.exportEntry_ok_iff.mp hentry
        obtain ⟨before, e, after, written, rfl, hpassed, hfiles, hescapes⟩ := ih h
        refine ⟨entry :: before, e, after, (entry.path, w) :: written, rfl, ?_,
          Store.readFiles_cons_some.mpr ⟨w, written, s1, hread, hfiles, rfl⟩, hescapes⟩
        intro e' he'
        rcases List.mem_cons.mp he' with rfl | he'
        · exact ⟨hpath, hfits⟩
        · exact hpassed e' he'
      · rw [if_neg hr] at h
        have hne : r ≠ .err (.unsafePath path) := by
          have hne : (Store.exportEntry d m entry s).1 ≠ .err (.unsafePath path) :=
            Store.exportEntry_ne
          rwa [hentry] at hne
        exact absurd (Prod.mk.inj h).1 hne

/-- Every complaint of a path is a refusal. -/
theorem Store.refused_of_unsafePath {d : Disk} {m : Manifest} {path : Text}
    {out : List (Text × Bytes)} {s s' : Store}
    (h : s.exportTreeToDir d m = (.err (.unsafePath path), out, s')) :
    ∃ written, s.Refused d m (.unsafePath path) written := by
  unfold Store.exportTreeToDir at h
  split at h
  · next hroot =>
    obtain ⟨before, entry, after, written, hsplit, hpassed, hread, hescapes, rfl⟩ :=
      Store.exportFiles_unsafePath h
    exact ⟨written, .unsafePath hroot hsplit hpassed hread hescapes⟩
  · cases h

/-! ## What is left behind -/

variable {refuses : List Bytes → Bool}

/-- A refused manifest leaves the directory as it was exactly where the directory held already, at
each destination, the last of what is written there before the refusal: the files of the entries
before the refused one and, for an index out of range, the chunks of the entry's own file up to that
index. -/
theorem refused_untouched_iff (refuses : List Bytes → Bool) (t : OutputTree) :
    (∀ (d : Disk) (s : Store) (m : Manifest) e t' s',
      s.exportTreeInto refuses d m t = (.err e, t', s') →
      (∀ path, e = .unsafePath path → ∃ written, s.Refused d m e written) ∧
      ∀ written, s.Refused d m e written → (t' = t ↔ t.AlreadyHolds (placesOf written))) ∧
    ∀ files rel t', writeTreeInto refuses files t = (some (.unsafePath rel), t') →
      (t' = t ↔ t.AlreadyHolds (placesOf (leading files))) := by
  constructor
  · intro d s m e t' s' h
    constructor
    · rintro path rfl
      obtain ⟨out, hexport, -⟩ := Store.exportTreeInto_eq h (by simp)
      exact Store.refused_of_unsafePath hexport
    · intro written hrefused
      obtain ⟨s1, hexport⟩ := hrefused.export
      have hio : Outcome.err e ≠ .err .io := by
        cases hrefused <;> simp
      obtain ⟨out, hsame, hland⟩ := Store.exportTreeInto_eq h hio
      obtain rfl : written = out := (Prod.mk.inj (Prod.mk.inj (hexport.symm.trans hsame)).2).1
      exact FileTree.writeAll_eq_self_iff (landAll_ok hland)
  · intro files rel t' h
    rcases @writeTreeInto_spec refuses [] files t with ⟨t1, hland, hinto⟩ | hio
    · rw [h] at hinto
      obtain rfl : t' = t1 := (Prod.mk.inj hinto).2
      exact FileTree.writeAll_eq_self_iff (landAll_ok hland)
    · rw [h] at hio
      cases hio

end

/-- The two entries of one manifest, the second with the path `..`. -/
def escapingManifest : Manifest :=
  manifestAt pathA ⟨ascii "..", by decide⟩

/-- The index behind the one chunk. -/
def outOfRangeManifest : Manifest :=
  { escapingManifest with files := [⟨pathA, 1, 1, 1⟩] }

/-- A directory that holds the file `a` with the byte `x`. -/
def treeOfX : OutputTree := (FileTree.write (fun _ => false) .empty [ascii "a"] [120]).2

/-- What the entry before the refused one would write is there. -/
theorem refused_untouched_x :
    let _ := blake3OfX
    (storeOfX.exportTreeInto (fun _ => false) diskOfX escapingManifest treeOfX).2.1 = treeOfX := by
  intro _
  obtain ⟨hexport, -⟩ := refused_untouched_iff (fun _ => false) treeOfX
  have hend : (storeOfX.exportTreeInto (fun _ => false) diskOfX escapingManifest treeOfX).1 =
      .err (.unsafePath ⟨ascii "..", by decide⟩) := by
    decide +kernel
  obtain ⟨-, hiff⟩ := hexport diskOfX storeOfX escapingManifest _ _ _ (Prod.ext hend rfl)
  have hread : (Store.readFiles diskOfX escapingManifest
      (escapingManifest.files.take 1) storeOfX).1 = some [(⟨ascii "a", by decide⟩, [120])] := by
    decide +kernel
  have hpassed : ∀ e ∈ escapingManifest.files.take 1, e.PathOk ∧ e.Fits := by
    unfold FileEntry.PathOk FileEntry.Fits
    decide +kernel
  have hsplit : escapingManifest.files =
      escapingManifest.files.take 1 ++ ⟨⟨ascii "..", by decide⟩, 0, 1, 0⟩ :: [] := rfl
  have hescapes : validateRelativePath (ascii "..") ≠ .ok () := by decide +kernel
  refine (hiff _ (.unsafePath (by decide +kernel) hsplit hpassed (Prod.ext hread rfl)
    hescapes)).mpr ?_
  exact FileTree.alreadyHolds_singleton.mpr (by decide +kernel)

/-- A path refused after another entry, an index out of range and a path refused by `write_tree`
each leave a file in a directory that was empty. -/
theorem refused_leaves_a_file :
    let _ := blake3OfX
    ((storeOfX.exportTreeInto (fun _ => false) diskOfX escapingManifest .empty).1 =
        .err (.unsafePath ⟨ascii "..", by decide⟩) ∧
      (storeOfX.exportTreeInto (fun _ => false) diskOfX escapingManifest .empty).2.1 ≠ .empty) ∧
    ((storeOfX.exportTreeInto (fun _ => false) diskOfX outOfRangeManifest .empty).1 =
        .err (.corrupt outOfRangeManifest.root) ∧
      (∃ written, storeOfX.Refused diskOfX outOfRangeManifest
        (.corrupt outOfRangeManifest.root) written) ∧
      (storeOfX.exportTreeInto (fun _ => false) diskOfX outOfRangeManifest .empty).2.1 ≠ .empty) ∧
    ∃ files rel t', writeTreeInto (fun _ => false) files .empty = (some (.unsafePath rel), t') ∧
      t' ≠ .empty := by
  intro _
  -- what stands at `a` tells the tree from an empty directory
  have hne {t : OutputTree} (h : (t.node [ascii "a"]).isSome) : t ≠ .empty := by
    rintro rfl
    cases h
  have hsplit : outOfRangeManifest.files = [] ++ ⟨⟨ascii "a", by decide⟩, 1, 1, 1⟩ :: [] := rfl
  refine ⟨⟨by decide +kernel, hne (by decide +kernel)⟩,
    ⟨by decide +kernel, ⟨[] ++ [(⟨ascii "a", by decide⟩, [])], ?_⟩, hne (by decide +kernel)⟩,
    [(⟨ascii "a", by decide⟩, [120]), (⟨ascii "..", by decide⟩, [])], ⟨ascii "..", by decide⟩,
    _, Prod.ext (by decide +kernel) rfl, hne (by decide +kernel)⟩
  exact .outOfRange (by decide +kernel) hsplit (by simp) rfl
    (by decide +kernel : validateRelativePath (ascii "a") = .ok ())
    (by decide : 1 + 1 < 2 ^ 64) (by decide : 0 < 1) rfl (by decide +kernel)

end Np2ptp
