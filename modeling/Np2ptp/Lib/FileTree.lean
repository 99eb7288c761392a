import Mathlib.Data.List.Infix
import Mathlib.Order.Basic

/-!
# File trees

What stands below a directory, path by path, and the two ways of adding to it: making a directory
with all that lead to it, and writing a file. A tree carries the law that whatever stands somewhere
stands in a directory, so a path cannot be a file and lead on at the same time. An operation may
fail and says so next to the tree it leaves behind; what else than the tree makes the platform
refuse a path is a parameter. The laws are about writes that succeed: each path holds what was
written to it last (`writeAll_node_of_last`), nothing else becomes a file
(`writeAll_node_of_notMem`), so everything is read back where no two writes disagree
(`writeAll_reads_back_iff`), and nothing has changed where everything was there before
(`writeAll_eq_self_iff`). Files at paths of which none leads to another are all written
(`writeAll_ok`).
-/

namespace Np2ptp.Lib

/-- What stands at a path. -/
inductive FileNode (β : Type*) where
  | dir
  | file (content : β)
  deriving DecidableEq

/-- What stands at each path below a directory; the empty path is the directory itself. -/
@[ext]
structure FileTree (α β : Type*) where
  node : List α → Option (FileNode β)
  /-- Whatever stands somewhere stands in a directory. -/
  nested : ∀ p a, (node (p ++ [a])).isSome → node p = some .dir

namespace FileTree

variable {α β : Type*}

/-- Everything on the way to what stands somewhere is a directory. -/
theorem node_of_prefix (t : FileTree α β) {p q : List α} (hp : (t.node p).isSome) (hq : q <+: p)
    (hne : q ≠ p) : t.node q = some .dir := by
  obtain ⟨rest, rfl⟩ := hq
  induction rest using List.reverseRecOn with
  | nil => exact absurd (List.append_nil q).symm hne
  | append_singleton rest a ih =>
    rw [← List.append_assoc] at hp
    have hdir := t.nested _ a hp
    by_cases hrest : q = q ++ rest
    · rw [hrest, hdir]
    · exact ih (by rw [hdir]; rfl) hrest

/-! ## Adding to a tree -/

/-- There is a directory to put something at the path into. -/
def Placed (t : FileTree α β) (p : List α) : Prop :=
  ∀ q a, p = q ++ [a] → t.node q = some .dir

/-- Whether a directory stands at the path. -/
def isDir (t : FileTree α β) (p : List α) : Bool :=
  match t.node p with
  | some .dir => true
  | _ => false

theorem isDir_iff {t : FileTree α β} {p : List α} : t.isDir p = true ↔ t.node p = some .dir := by
  unfold isDir
  split
  · next h => exact ⟨fun _ => h, fun _ => rfl⟩
  · next h => exact ⟨fun hf => absurd hf Bool.false_ne_true, fun hd => absurd hd h⟩

theorem placed_of_isDir {t : FileTree α β} {p : List α} (h : p = [] ∨ t.isDir p.dropLast = true) :
    t.Placed p := by
  rintro q a rfl
  rcases h with h | h
  · exact absurd h (List.append_ne_nil_of_right_ne_nil q (List.cons_ne_nil a []))
  · rw [List.dropLast_concat] at h
    exact isDir_iff.mp h

theorem leaf_of_not_isDir {t : FileTree α β} {p : List α} (h : t.isDir p = false) (a : α) :
    t.node (p ++ [a]) = none := by
  refine Option.eq_none_iff_forall_ne_some.mpr fun n hn => ?_
  have hdir := isDir_iff.mpr (t.nested p a (by rw [hn]; rfl))
  rw [h] at hdir
  cases hdir

/-- Every path holds already what is written to it last. -/
def AlreadyHolds (t : FileTree α β) (writes : List (List α × β)) : Prop :=
  ∀ before p c after, writes = before ++ (p, c) :: after → (∀ f ∈ after, f.1 ≠ p) →
    t.node p = some (.file c)

theorem alreadyHolds_singleton {t : FileTree α β} {p : List α} {c : β} :
    t.AlreadyHolds [(p, c)] ↔ t.node p = some (.file c) := by
  constructor
  · intro h
    exact h [] p c [] rfl (by simp)
  · intro h before q c' after hsplit _
    have hmem : (q, c') ∈ [(p, c)] := hsplit ▸ List.mem_append_right _ List.mem_cons_self
    cases List.mem_singleton.mp hmem
    exact h

variable [DecidableEq α]

/-- An empty directory. -/
def empty : FileTree α β where
  node p := if p = [] then some .dir else none
  nested p a h := by
    rw [if_neg (List.append_ne_nil_of_right_ne_nil p (List.cons_ne_nil a []))] at h
    cases h

/-- Something is put at a path. What is not a directory has nothing below it. -/
def put (t : FileTree α β) (p : List α) (n : FileNode β) (hplaced : t.Placed p)
    (hleaf : n = .dir ∨ ∀ a, t.node (p ++ [a]) = none) : FileTree α β where
  node q := if q = p then some n else t.node q
  nested q a h := by
    by_cases hqa : q ++ [a] = p
    · have hne : q ≠ p := by
        rintro rfl
        simp at hqa
      rw [if_neg hne]
      exact hplaced q a hqa.symm
    · rw [if_neg hqa] at h
      by_cases hq : q = p
      · subst hq
        rw [if_pos rfl]
        rcases hleaf with rfl | hleaf
        · rfl
        · rw [hleaf a] at h
          cases h
      · rw [if_neg hq]
        exact t.nested q a h

variable (refuses : List α → Bool)

/-- `mkdir`, where a directory that stands is as good as a new one. -/
def mkdir (t : FileTree α β) (p : List α) : Bool × FileTree α β :=
  if t.isDir p then (true, t)
  else if h : (p = [] ∨ t.isDir p.dropLast = true) ∧ (t.node p).isNone ∧ refuses p = false then
    (true, t.put p .dir (placed_of_isDir h.1) (.inl rfl))
  else (false, t)

/-- Directories made one after the other. -/
def mkdirs : List (List α) → FileTree α β → Bool × FileTree α β
  | [], t => (true, t)
  | p :: ps, t =>
    match t.mkdir refuses p with
    | (true, t) => mkdirs ps t
    | (false, t) => (false, t)

/-- A directory is made with all that lead to it. -/
def createDirAll (t : FileTree α β) (p : List α) : Bool × FileTree α β := t.mkdirs refuses p.inits

/-- A file is written into a directory that stands, over the file that was there. -/
def createFile (t : FileTree α β) (p : List α) (c : β) : Bool × FileTree α β :=
  if h : (p ≠ [] ∧ t.isDir p.dropLast = true) ∧ t.isDir p = false ∧ refuses p = false then
    (true, t.put p (.file c) (placed_of_isDir (.inr h.1.2)) (.inr (leaf_of_not_isDir h.2.1)))
  else (false, t)

/-- A file is written, with the directories that lead to it. -/
def write (t : FileTree α β) (p : List α) (c : β) : Bool × FileTree α β :=
  match t.createDirAll refuses p.dropLast with
  | (true, t) => t.createFile refuses p c
  | (false, t) => (false, t)

/-- Files written one after the other, up to the first that fails. -/
def writeAll : FileTree α β → List (List α × β) → Bool × FileTree α β
  | t, [] => (true, t)
  | t, (p, c) :: writes =>
    match t.write refuses p c with
    | (true, t) => writeAll t writes
    | (false, t) => (false, t)

/-! ## What a write leaves behind -/

variable {refuses}

/-- Nothing is taken from the tree, and what is new are directories at some of the paths. -/
def GrowsBy (ps : List (List α)) (t t' : FileTree α β) : Prop :=
  ∀ q, t'.node q = t.node q ∨ q ∈ ps ∧ t.node q = none ∧ t'.node q = some .dir

theorem mkdir_grows (t : FileTree α β) (p : List α) : GrowsBy [p] t (t.mkdir refuses p).2 := by
  intro q
  unfold mkdir
  split
  · exact .inl rfl
  · split
    · next h =>
      by_cases hq : q = p
      · subst hq
        refine .inr ⟨List.mem_singleton_self q, Option.isNone_iff_eq_none.mp h.2.1, ?_⟩
        exact if_pos rfl
      · exact .inl (if_neg hq)
    · exact .inl rfl

theorem mkdirs_grows (ps : List (List α)) (t : FileTree α β) :
    GrowsBy ps t (mkdirs refuses ps t).2 := by
  induction ps generalizing t with
  | nil => exact fun q => .inl rfl
  | cons p ps ih =>
    intro q
    have hmkdir : GrowsBy [p] t (t.mkdir refuses p).2 := mkdir_grows t p
    have hone := hmkdir q
    rw [mkdirs]
    rcases hmk : t.mkdir refuses p with ⟨_ | _, t1⟩
    · rw [hmk] at hone
      rcases hone with h | ⟨hq, hnone, hdir⟩
      · exact .inl h
      · exact .inr ⟨List.mem_cons.mpr (.inl (List.mem_singleton.mp hq)), hnone, hdir⟩
    · rw [hmk] at hone
      rcases ih t1 q with hrest | ⟨hq, hnone, hdir⟩
      · rcases hone with h | ⟨hq, hnone, hdir⟩
        · exact .inl (hrest.trans h)
        · exact .inr ⟨List.mem_cons.mpr (.inl (List.mem_singleton.mp hq)), hnone,
            hrest.trans hdir⟩
      · rcases hone with h | ⟨-, -, hdir'⟩
        · exact .inr ⟨List.mem_cons_of_mem p hq, h.symm.trans hnone, hdir⟩
        · rw [hnone] at hdir'
          cases hdir'

theorem createFile_ok {t t' : FileTree α β} {p : List α} {c : β}
    (h : t.createFile refuses p c = (true, t')) (q : List α) :
    t'.node q = if q = p then some (.file c) else t.node q := by
  unfold createFile at h
  split at h
  · obtain rfl := (Prod.mk.inj h).2
    rfl
  · cases h

/-- A file that is written is there, and apart from it the tree has only gained directories on the
way to it. -/
theorem write_spec {t t' : FileTree α β} {p : List α} {c : β}
    (h : t.write refuses p c = (true, t')) : t'.node p = some (.file c) ∧
      ∀ q, q ≠ p → t'.node q = t.node q ∨
        (q <+: p ∧ t.node q = none ∧ t'.node q = some .dir) := by
  have hgrows : GrowsBy _ t (mkdirs refuses p.dropLast.inits t).2 := mkdirs_grows _ t
  unfold write createDirAll at h
  split at h
  · next t1 hdirs =>
    rw [hdirs] at hgrows
    have hnode := createFile_ok h
    refine ⟨by rw [hnode, if_pos rfl], fun q hq => ?_⟩
    rw [hnode, if_neg hq]
    rcases hgrows q with hsame | ⟨hmem, hnone, hdir⟩
    · exact .inl hsame
    · exact .inr ⟨((List.mem_inits q _).mp hmem).trans (List.dropLast_prefix p), hnone, hdir⟩
  · cases h

/-- A write leaves every other file as it is. -/
theorem write_file_iff {t t' : FileTree α β} {p q : List α} {c c' : β}
    (h : t.write refuses p c = (true, t')) (hq : q ≠ p) :
    t'.node q = some (.file c') ↔ t.node q = some (.file c') := by
  rcases (write_spec h).2 q hq with hsame | ⟨-, hnone, hdir⟩
  · rw [hsame]
  · rw [hnone, hdir]
    simp

/-! ## What many writes leave behind -/

theorem writeAll_cons_ok {t t' : FileTree α β} {p : List α} {c : β} {writes : List (List α × β)}
    (h : t.writeAll refuses ((p, c) :: writes) = (true, t')) :
    ∃ t1, t.write refuses p c = (true, t1) ∧ t1.writeAll refuses writes = (true, t') := by
  rw [writeAll] at h
  split at h
  · next t1 hw => exact ⟨t1, hw, h⟩
  · cases h

/-- A path that is not written to holds a file only if it held it before. -/
theorem writeAll_node_of_notMem {writes : List (List α × β)} {t t' : FileTree α β}
    (h : t.writeAll refuses writes = (true, t')) {q : List α} (hq : ∀ f ∈ writes, f.1 ≠ q) (c : β) :
    t'.node q = some (.file c) ↔ t.node q = some (.file c) := by
  induction writes generalizing t with
  | nil =>
    obtain rfl := (Prod.mk.inj h).2
    exact Iff.rfl
  | cons f writes ih =>
    obtain ⟨t1, hw, hrest⟩ := writeAll_cons_ok h
    have hne : q ≠ f.1 := fun he => hq f List.mem_cons_self he.symm
    rw [ih hrest fun g hg => hq g (List.mem_cons_of_mem f hg), write_file_iff hw hne]

/-- Each path holds what was written to it last. -/
theorem writeAll_node_of_last {before after : List (List α × β)} {p : List α} {c : β}
    {t t' : FileTree α β} (h : t.writeAll refuses (before ++ (p, c) :: after) = (true, t'))
    (hlast : ∀ f ∈ after, f.1 ≠ p) : t'.node p = some (.file c) := by
  induction before generalizing t with
  | nil =>
    obtain ⟨t1, hw, hrest⟩ := writeAll_cons_ok h
    exact (writeAll_node_of_notMem hrest hlast c).mpr (write_spec hw).1
  | cons f before ih =>
    obtain ⟨t1, -, hrest⟩ := writeAll_cons_ok h
    exact ih hrest

/-- A path that is written to is written to a last time. -/
theorem exists_last {writes : List (List α × β)} {p : List α} (h : ∃ f ∈ writes, f.1 = p) :
    ∃ before c after, writes = before ++ (p, c) :: after ∧ ∀ f ∈ after, f.1 ≠ p := by
  induction writes with
  | nil =>
    obtain ⟨f, hf, -⟩ := h
    cases hf
  | cons g writes ih =>
    by_cases hlater : ∃ f ∈ writes, f.1 = p
    · obtain ⟨before, c, after, rfl, hlast⟩ := ih hlater
      exact ⟨g :: before, c, after, rfl, hlast⟩
    · obtain ⟨f, hf, rfl⟩ := h
      rcases List.mem_cons.mp hf with rfl | hf
      · exact ⟨[], f.2, writes, rfl, fun f' hf' he => hlater ⟨f', hf', he⟩⟩
      · exact absurd ⟨f, hf, rfl⟩ hlater

/-- Everything is read back exactly where no two writes to one path differ. -/
theorem writeAll_reads_back_iff {writes : List (List α × β)} {t t' : FileTree α β}
    (h : t.writeAll refuses writes = (true, t')) :
    (∀ f ∈ writes, t'.node f.1 = some (.file f.2)) ↔
      ∀ f ∈ writes, ∀ g ∈ writes, f.1 = g.1 → f.2 = g.2 := by
  constructor
  · intro hread f hf g hg he
    have hboth := (hread f hf).symm.trans (he ▸ hread g hg)
    exact FileNode.file.inj (Option.some.inj hboth)
  · intro hsame f hf
    obtain ⟨before, c, after, hsplit, hlast⟩ := exists_last ⟨f, hf, rfl⟩
    have hmem : (f.1, c) ∈ writes := by
      rw [hsplit]
      exact List.mem_append_right _ List.mem_cons_self
    rw [hsame f hf (f.1, c) hmem rfl]
    rw [hsplit] at h
    exact writeAll_node_of_last h hlast

/-- What has changed is a file that was written, or a directory on the way to one. -/
theorem writeAll_node {writes : List (List α × β)} {t t' : FileTree α β}
    (h : t.writeAll refuses writes = (true, t')) (q : List α) :
    t'.node q = t.node q ∨ (∃ f ∈ writes, f.1 = q) ∨
      (∃ f ∈ writes, q <+: f.1 ∧ q ≠ f.1) ∧ t.node q = none := by
  induction writes generalizing t with
  | nil =>
    obtain rfl := (Prod.mk.inj h).2
    exact .inl rfl
  | cons f writes ih =>
    obtain ⟨t1, hw, hrest⟩ := writeAll_cons_ok h
    by_cases hq : q = f.1
    · exact .inr (.inl ⟨f, List.mem_cons_self, hq.symm⟩)
    · rcases (write_spec hw).2 q hq with hone | ⟨hbelow, hnone, -⟩
      · rcases ih hrest with hsame | ⟨g, hg, he⟩ | ⟨⟨g, hg, hup⟩, hnone⟩
        · exact .inl (hsame.trans hone)
        · exact .inr (.inl ⟨g, List.mem_cons_of_mem f hg, he⟩)
        · exact .inr (.inr ⟨⟨g, List.mem_cons_of_mem f hg, hup⟩, hone.symm.trans hnone⟩)
      · exact .inr (.inr ⟨⟨f, List.mem_cons_self, hbelow, hq⟩, hnone⟩)

/-- Nothing has changed exactly where everything was there before. -/
theorem writeAll_eq_self_iff {writes : List (List α × β)} {t t' : FileTree α β}
    (h : t.writeAll refuses writes = (true, t')) : t' = t ↔ t.AlreadyHolds writes := by
  constructor
  · rintro rfl before p c after rfl hlast
    exact writeAll_node_of_last h hlast
  · intro hheld
    have hwritten {q : List α} (hq : ∃ f ∈ writes, f.1 = q) :
        ∃ c, t'.node q = some (.file c) ∧ t.node q = some (.file c) := by
      obtain ⟨before, c, after, hsplit, hlast⟩ := exists_last hq
      refine ⟨c, ?_, hheld before q c after hsplit hlast⟩
      rw [hsplit] at h
      exact writeAll_node_of_last h hlast
    ext1
    funext q
    rcases writeAll_node h q with hsame | hq | ⟨⟨f, hf, hbelow, hne⟩, hnone⟩
    · exact hsame
    · obtain ⟨c, hafter, hbefore⟩ := hwritten hq
      rw [hafter, hbefore]
    · -- what leads to a file that stood is not missing
      obtain ⟨c, -, hbefore⟩ := hwritten ⟨f, hf, rfl⟩
      have hdir := t.node_of_prefix (by rw [hbefore]; rfl) hbelow hne
      rw [hnone] at hdir
      cases hdir

/-! ## Writes that succeed -/

theorem mkdirs_append (ps qs : List (List α)) {t t1 : FileTree α β}
    (h : mkdirs refuses ps t = (true, t1)) :
    mkdirs refuses (ps ++ qs) t = mkdirs refuses qs t1 := by
  induction ps generalizing t with
  | nil =>
    cases h
    rfl
  | cons p ps ih =>
    rw [mkdirs] at h
    rw [List.cons_append, mkdirs]
    rcases hmk : t.mkdir refuses p with ⟨_ | _, t2⟩
    · rw [hmk] at h
      cases h
    · rw [hmk] at h
      exact ih h

/-- No file stands in the way of a file at the path. -/
structure Free (t : FileTree α β) (p : List α) : Prop where
  above : ∀ q c, q <+: p → q ≠ p → t.node q ≠ some (.file c)
  notDir : t.node p ≠ some .dir

/-- Directories are made with all that lead to them where no file is in the way. -/
theorem createDirAll_ok {t : FileTree α β} (hfree : ∀ q, refuses q = false)
    (hroot : t.node [] = some .dir) {p : List α}
    (habove : ∀ q c, q <+: p → t.node q ≠ some (.file c)) :
    ∃ t', t.createDirAll refuses p = (true, t') ∧ t'.node p = some .dir := by
  induction p using List.reverseRecOn with
  | nil =>
    refine ⟨t, ?_, hroot⟩
    rw [createDirAll, List.inits, mkdirs, mkdir, if_pos (isDir_iff.mpr hroot)]
    rfl
  | append_singleton p a ih =>
    obtain ⟨t1, hdirs, hdir⟩ := ih fun q c hq => habove q c (hq.trans (List.prefix_append _ _))
    have hgrows : GrowsBy p.inits t (t.createDirAll refuses p).2 := mkdirs_grows p.inits t
    rw [hdirs] at hgrows
    have hlast : (p ++ [a]).inits = p.inits ++ [p ++ [a]] := by
      rw [List.inits_append]
      rfl
    rw [createDirAll, hlast, mkdirs_append _ _ hdirs, mkdirs]
    by_cases hd : t1.isDir (p ++ [a]) = true
    · exact ⟨t1, by rw [mkdir, if_pos hd]; rfl, isDir_iff.mp hd⟩
    · have hnone : (t1.node (p ++ [a])).isNone = true := by
        rcases hn : t1.node (p ++ [a]) with _ | _ | c
        · rfl
        · exact absurd (isDir_iff.mpr hn) hd
        · rcases hgrows (p ++ [a]) with hsame | ⟨-, -, hdir'⟩
          · exact absurd (hsame.symm.trans hn) (habove _ c (List.prefix_refl _))
          · rw [hn] at hdir'
            cases hdir'
      have hparent : t1.isDir (p ++ [a]).dropLast = true := by
        rw [List.dropLast_concat]
        exact isDir_iff.mpr hdir
      rw [mkdir, if_neg hd, dif_pos ⟨.inr hparent, hnone, hfree _⟩]
      exact ⟨_, rfl, if_pos rfl⟩

/-- A write succeeds where nothing is in its way. -/
theorem write_ok {t : FileTree α β} (hfree : ∀ q, refuses q = false)
    (hroot : t.node [] = some .dir) {p : List α} (hne : p ≠ []) (h : t.Free p) (c : β) :
    ∃ t', t.write refuses p c = (true, t') := by
  obtain ⟨t1, hdirs, hdir⟩ := createDirAll_ok hfree hroot fun q c hq =>
    h.above q c (hq.trans (List.dropLast_prefix p)) fun he => by
      have hlen := hq.length_le
      rw [he, List.length_dropLast] at hlen
      have hpos := List.length_pos_iff.mpr hne
      omega
  have hgrows : GrowsBy p.dropLast.inits t (t.createDirAll refuses p.dropLast).2 :=
    mkdirs_grows _ t
  rw [hdirs] at hgrows
  have hfile : t1.isDir p = false := by
    refine Bool.eq_false_iff.mpr fun hd => ?_
    have hd := isDir_iff.mp hd
    rcases hgrows p with hsame | ⟨hmem, -, -⟩
    · exact h.notDir (hsame.symm.trans hd)
    · have hlen := ((List.mem_inits _ _).mp hmem).length_le
      rw [List.length_dropLast] at hlen
      have hpos := List.length_pos_iff.mpr hne
      omega
  rw [write, hdirs]
  dsimp only
  rw [createFile, dif_pos ⟨⟨hne, isDir_iff.mpr hdir⟩, hfile, hfree p⟩]
  exact ⟨_, rfl⟩

/-- What is written at a path is in the way of no file elsewhere. -/
theorem Free.write {t t' : FileTree α β} {p q : List α} {c : β} (h : t.Free q)
    (hw : t.write refuses p c = (true, t')) (hpq : ¬ p <+: q) (hqp : ¬ q <+: p) : t'.Free q := by
  obtain ⟨hfile, hrest⟩ := write_spec hw
  refine ⟨fun r c' hr hne hn => ?_, fun hn => ?_⟩
  · by_cases hrp : r = p
    · exact hpq (hrp ▸ hr)
    · rcases hrest r hrp with hsame | ⟨-, -, hdir⟩
      · exact h.above r c' hr hne (hsame.symm.trans hn)
      · rw [hdir] at hn
        cases hn
  · by_cases hqeq : q = p
    · exact hqp (hqeq ▸ List.prefix_refl _)
    · rcases hrest q hqeq with hsame | ⟨hbelow, -, -⟩
      · exact h.notDir (hsame.symm.trans hn)
      · exact hqp hbelow

/-- Files at paths apart are all written. -/
theorem writeAll_ok {writes : List (List α × β)} {t : FileTree α β}
    (hfree : ∀ q, refuses q = false) (hroot : t.node [] = some .dir) (hne : ∀ f ∈ writes, f.1 ≠ [])
    (hfrees : ∀ f ∈ writes, t.Free f.1)
    (hapart : writes.Pairwise fun f g => ¬ f.1 <+: g.1 ∧ ¬ g.1 <+: f.1) :
    ∃ t', t.writeAll refuses writes = (true, t') := by
  induction writes generalizing t with
  | nil => exact ⟨t, rfl⟩
  | cons f writes ih =>
    obtain ⟨p, c⟩ := f
    obtain ⟨hfirst, hapart⟩ := List.pairwise_cons.mp hapart
    obtain ⟨t1, hw⟩ := write_ok hfree hroot (hne _ List.mem_cons_self)
      (hfrees _ List.mem_cons_self) c
    have hroot1 : t1.node [] = some .dir := by
      rcases (write_spec hw).2 [] fun h => hne _ List.mem_cons_self h.symm with hsame | ⟨-, -, hd⟩
      · exact hsame.trans hroot
      · exact hd
    obtain ⟨t', hrest⟩ := ih hroot1 (fun g hg => hne g (List.mem_cons_of_mem _ hg))
      (fun g hg => (hfrees g (List.mem_cons_of_mem _ hg)).write hw (hfirst g hg).1
        (hfirst g hg).2) hapart
    refine ⟨t', ?_⟩
    rw [writeAll, hw]
    exact hrest

/-! ## An empty directory that is filled -/

omit [DecidableEq α] in
theorem free_empty {p : List α} (hne : p ≠ []) : (empty : FileTree α β).Free p := by
  refine ⟨fun q c _ _ h => ?_, fun h => ?_⟩
  · rw [empty] at h
    dsimp only at h
    split at h <;> cases h
  · rw [empty] at h
    dsimp only at h
    rw [if_neg hne] at h
    cases h

/-- What stands in a directory that is filled are the files that were written to it. -/
theorem writeAll_empty_file_iff {writes : List (List α × β)} {t' : FileTree α β}
    (h : empty.writeAll refuses writes = (true, t'))
    (hone : ∀ f ∈ writes, ∀ g ∈ writes, f.1 = g.1 → f.2 = g.2) (q : List α) (c : β) :
    t'.node q = some (.file c) ↔ (q, c) ∈ writes := by
  have hread := (writeAll_reads_back_iff h).mpr hone
  constructor
  · intro hn
    by_cases hq : ∃ f ∈ writes, f.1 = q
    · obtain ⟨f, hf, rfl⟩ := hq
      have hc := (hread f hf).symm.trans hn
      rw [Option.some.injEq, FileNode.file.injEq] at hc
      exact hc ▸ hf
    · have hbefore := (writeAll_node_of_notMem h
        (fun f hf he => hq ⟨f, hf, he⟩) c).mp hn
      rw [empty] at hbefore
      dsimp only at hbefore
      split at hbefore <;> cases hbefore
  · exact fun hm => hread (q, c) hm

/-- And the directories are those that lead to one of them. -/
theorem writeAll_empty_dir_iff {writes : List (List α × β)} {t' : FileTree α β}
    (h : empty.writeAll refuses writes = (true, t'))
    (hone : ∀ f ∈ writes, ∀ g ∈ writes, f.1 = g.1 → f.2 = g.2) (q : List α) :
    t'.node q = some .dir ↔ t'.node [] = some .dir ∧
      (q = [] ∨ ∃ f ∈ writes, q <+: f.1 ∧ q ≠ f.1) := by
  have hread := (writeAll_reads_back_iff h).mpr hone
  constructor
  · intro hn
    have hroot : t'.node [] = some .dir := by
      by_cases hq : q = []
      · rw [← hq]
        exact hn
      · exact t'.node_of_prefix (by rw [hn]; rfl) List.nil_prefix fun h => hq h.symm
    refine ⟨hroot, ?_⟩
    rcases writeAll_node h q with hsame | ⟨f, hf, rfl⟩ | ⟨hbelow, -⟩
    · left
      by_contra hq
      rw [hn, empty] at hsame
      dsimp only at hsame
      rw [if_neg hq] at hsame
      cases hsame
    · have hc := (hread f hf).symm.trans hn
      cases hc
    · exact .inr hbelow
  · rintro ⟨hroot, rfl | ⟨f, hf, hbelow, hne⟩⟩
    · exact hroot
    · exact t'.node_of_prefix (by rw [hread f hf]; rfl) hbelow hne

end FileTree

end Np2ptp.Lib
