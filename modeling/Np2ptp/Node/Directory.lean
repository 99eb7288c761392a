import Np2ptp.Lib.SortBy
import Np2ptp.Node.Tree
import Np2ptp.Store.Packing

/-!
# Packing a directory

`read_dir_paths` lists the regular files of a directory by their relative paths and
`read_dir_tree` reads them as well. Both walk the directory in the order in which it is listed and
sort by path afterwards. What they give is a matter of the files alone (`readDirPaths_eq`), so two
directories with the same files are packed under one manifest wherever they lie and however they
are listed (`same_files_same_manifest`). The one way for the order to come in are two names that
read alike once they are text.
-/

namespace Np2ptp

open Lib

/-! ## Where a file stands and what it is called -/

/-- Names pushed onto a directory one after the other. -/
def diskPath (root : Bytes) (names : List FileName) : Bytes :=
  names.foldl (fun path name => push path name.1) root

/-- What a manifest calls a file. -/
def relPath (names : List FileName) : Text := .ofLossy ([47].intercalate (names.map Subtype.val))

theorem components_diskPath (root : Bytes) (names : List FileName) :
    components (diskPath root names) =
      components root ++ names.map fun n => .normal n.1 := by
  induction names generalizing root with
  | nil => exact (List.append_nil _).symm
  | cons name names ih =>
    have hfirst := components_push_name root name
    rw [diskPath, List.foldl_cons]
    show components (diskPath (push root name.1) names) = _
    rw [ih, hfirst, List.append_assoc]
    rfl

theorem relStr_diskPath (root : Bytes) {names : List FileName} (hne : names ≠ []) :
    relStr root (diskPath root names) = relPath names := by
  have hbytes := relStr_eq hne (components_diskPath root names)
  cases hrel : relStr root (diskPath root names) with
  | mk bytes valid =>
    rw [hrel] at hbytes
    cases hbytes
    rfl

/-- The walk in terms of the files. -/
theorem walk_eq (base : Bytes) (tree : Listing) : ∀ dir : Bytes, walk base dir tree =
    tree.filePaths.map fun names => (relStr base (diskPath dir names), diskPath dir names) := by
  induction tree with
  | done => exact fun _ => rfl
  | file name rest ih =>
    intro dir
    rw [walk, ih, Listing.filePaths, List.map_cons]
    rfl
  | special name rest ih => exact ih
  | dir name content rest ihcontent ihrest =>
    intro dir
    rw [walk, ihcontent, ihrest, Listing.filePaths, List.map_append, List.map_map]
    rfl

/-- What `sort_by` compares. -/
def sortKey {α : Type} (f : Text × α) : Bytes := f.1.bytes

/-- The files in the order of their paths. -/
def sortedPaths (tree : Listing) : List (List FileName) :=
  sortBy (fun names => (relPath names).bytes) tree.filePaths

/-- What is listed are the files in the order of their paths. -/
theorem readDirPaths_eq (root : Bytes) (tree : Listing) : readDirPaths root tree =
    (sortedPaths tree).map fun names => (relPath names, diskPath root names) := by
  have hwalk : walk root root tree =
      tree.filePaths.map fun names => (relPath names, diskPath root names) := by
    rw [walk_eq]
    refine List.map_congr_left fun names hnames => ?_
    rw [relStr_diskPath root (ne_nil_of_mem_filePaths names hnames)]
  have hsort : readDirPaths root tree = sortBy sortKey (walk root root tree) := rfl
  rw [hsort, hwalk]
  exact (map_sortBy _ sortKey _ fun _ _ => rfl).symm

/-! ## Reading a directory -/

/-- `fs::read`. -/
def Disk.contentAt (d : Disk) (path : Bytes) : Option Bytes :=
  match d.sources.lookup path with
  | some (.file content) => some content
  | _ => none

/-- The inner function of `read_dir_tree`, which ends where a file cannot be read. -/
def walkTree (d : Disk) (base dir : Bytes) : Listing → Option (List (Text × Bytes))
  | .done => some []
  | .file name rest =>
    (d.contentAt (push dir name)).bind fun content =>
      (walkTree d base dir rest).map fun files =>
        (relStr base (push dir name), content) :: files
  | .special _ rest => walkTree d base dir rest
  | .dir name content rest =>
    (walkTree d base (push dir name) content).bind fun below =>
      (walkTree d base dir rest).map fun files => below ++ files

/-- `read_dir_tree`. -/
def readDirTree (d : Disk) (root : Bytes) (tree : Listing) : Option (List (Text × Bytes)) :=
  (walkTree d root root tree).map (sortBy sortKey)

theorem Disk.contentAt_eq_some {d : Disk} {path content : Bytes} :
    d.contentAt path = some content ↔ d.sources.lookup path = some (.file content) := by
  unfold Disk.contentAt
  split
  · next h => rw [h, Option.some.injEq, Option.some.injEq, Source.file.injEq]
  · next h =>
    constructor
    · intro hc
      cases hc
    · exact fun hf => absurd hf (h content)

/-- Copies are what is read at the paths. -/
theorem Disk.copies_iff {d : Disk} {onDisk files : List (Text × Bytes)} :
    d.Copies onDisk files ↔
      onDisk.map (fun f => (f.1, d.contentAt f.2)) = files.map fun f => (f.1, some f.2) := by
  induction onDisk generalizing files with
  | nil => cases files <;> simp [Disk.Copies, Disk.HasFiles]
  | cons f onDisk ih =>
    rw [Disk.copies_cons]
    cases files with
    | nil => simp
    | cons g files =>
      obtain ⟨path, content⟩ := g
      rw [List.map_cons, List.map_cons, List.cons.injEq, Prod.mk.injEq, Disk.contentAt_eq_some,
        ← ih]
      constructor
      · rintro ⟨_, _, he, hf, hrest⟩
        cases he
        exact ⟨⟨rfl, hf⟩, hrest⟩
      · rintro ⟨⟨hpath, hf⟩, hrest⟩
        exact ⟨content, files, by rw [hpath], hf, hrest⟩

theorem Disk.copies_append {d : Disk} {a b files : List (Text × Bytes)} :
    d.Copies (a ++ b) files ↔ ∃ x y, files = x ++ y ∧ d.Copies a x ∧ d.Copies b y := by
  simp only [Disk.copies_iff, List.map_append]
  constructor
  · intro h
    obtain ⟨x, y, rfl, hx, hy⟩ := List.map_eq_append_iff.mp h.symm
    exact ⟨x, y, rfl, hx.symm, hy.symm⟩
  · rintro ⟨x, y, rfl, hx, hy⟩
    rw [hx, hy, List.map_append]

/-- Copies stay copies when both are sorted. -/
theorem Disk.Copies.sorted {d : Disk} {onDisk files : List (Text × Bytes)}
    (h : d.Copies onDisk files) :
    d.Copies (sortBy sortKey onDisk) (sortBy sortKey files) := by
  have hsorts (f : Text × Bytes → Text × Option Bytes) (hf : ∀ g, (f g).1 = g.1)
      (l : List (Text × Bytes)) : (sortBy sortKey l).map f = sortBy sortKey (l.map f) :=
    map_sortBy sortKey sortKey f fun g _ => congrArg Text.bytes (hf g)
  rw [Disk.copies_iff] at h ⊢
  rw [hsorts _ fun _ => rfl, hsorts _ fun _ => rfl, h]

/-- The walk that reads gives copies of what the other one lists. -/
theorem walkTree_eq_some (d : Disk) (base : Bytes) (tree : Listing) :
    ∀ (dir : Bytes) (files : List (Text × Bytes)),
      walkTree d base dir tree = some files ↔ d.Copies (walk base dir tree) files := by
  induction tree with
  | done =>
    intro dir files
    rw [walkTree, walk, Disk.copies_iff]
    cases files <;> simp
  | file name rest ih =>
    intro dir files
    rw [walkTree, walk, Disk.copies_cons, Option.bind_eq_some_iff]
    constructor
    · rintro ⟨content, hc, hrest⟩
      obtain ⟨files', hw, rfl⟩ := Option.map_eq_some_iff.mp hrest
      exact ⟨content, files', rfl, Disk.contentAt_eq_some.mp hc, (ih dir files').mp hw⟩
    · rintro ⟨content, files', rfl, hf, hrest⟩
      refine ⟨content, Disk.contentAt_eq_some.mpr hf, ?_⟩
      exact Option.map_eq_some_iff.mpr ⟨files', (ih dir files').mpr hrest, rfl⟩
  | special name rest ih => exact ih
  | dir name content rest ihcontent ihrest =>
    intro dir files
    rw [walkTree, walk, Disk.copies_append, Option.bind_eq_some_iff]
    constructor
    · rintro ⟨below, hb, hrest⟩
      obtain ⟨files', hw, rfl⟩ := Option.map_eq_some_iff.mp hrest
      exact ⟨below, files', rfl, (ihcontent _ below).mp hb, (ihrest dir files').mp hw⟩
    · rintro ⟨below, files', rfl, hb, hrest⟩
      refine ⟨below, (ihcontent _ below).mpr hb, ?_⟩
      exact Option.map_eq_some_iff.mpr ⟨files', (ihrest dir files').mpr hrest, rfl⟩

/-- The two readers agree: what `read_dir_tree` returns are copies of the files that
`read_dir_paths` lists, in the same order. -/
theorem readDirTree_eq_some {d : Disk} {root : Bytes} {tree : Listing}
    {files : List (Text × Bytes)} :
    readDirTree d root tree = some files ↔ d.Copies (readDirPaths root tree) files := by
  have hcopies : ∀ {found}, walkTree d root root tree = some found →
      d.Copies (readDirPaths root tree) (sortBy sortKey found) := by
    intro found hfound
    exact ((walkTree_eq_some d root tree root found).mp hfound).sorted
  constructor
  · intro h
    obtain ⟨found, hfound, rfl⟩ := Option.map_eq_some_iff.mp h
    exact hcopies hfound
  · intro h
    -- every file that is listed is read, so the walk does not end early
    have hall : ∀ f ∈ walk root root tree, ∃ content, d.contentAt f.2 = some content := by
      intro f hf
      have hmem : f ∈ readDirPaths root tree := (List.perm_insertionSort _ _).mem_iff.mpr hf
      have hread : (f.1, d.contentAt f.2) ∈ files.map fun g => (g.1, some g.2) :=
        Disk.copies_iff.mp h ▸ List.mem_map_of_mem hmem
      obtain ⟨g, -, hg⟩ := List.mem_map.mp hread
      exact ⟨g.2, (congrArg Prod.snd hg).symm⟩
    obtain ⟨found, hfound⟩ : ∃ found, d.Copies (walk root root tree) found := by
      refine ⟨(walk root root tree).map fun f => (f.1, (d.contentAt f.2).getD []), ?_⟩
      rw [Disk.copies_iff, List.map_map]
      refine List.map_congr_left fun f hf => ?_
      obtain ⟨content, hc⟩ := hall f hf
      simp only [Function.comp_apply, hc, Option.getD_some]
    have hwalk := (walkTree_eq_some d root tree root found).mpr hfound
    rw [readDirTree, hwalk, Option.map_some, (hcopies hwalk).unique h]

/-! ## The files alone -/

/-- The regular files of a directory have these contents. -/
def Disk.HoldsTree (d : Disk) (root : Bytes) (tree : Listing) (content : List FileName → Bytes) :
    Prop :=
  ∀ names ∈ tree.filePaths, d.sources.lookup (diskPath root names) = some (.file (content names))

/-- The files as they are packed. -/
def packedFiles (tree : Listing) (content : List FileName → Bytes) : List (Text × Bytes) :=
  (sortedPaths tree).map fun names => (relPath names, content names)

theorem mem_sortedPaths {tree : Listing} {names : List FileName} :
    names ∈ sortedPaths tree ↔ names ∈ tree.filePaths := mem_sortBy

theorem Disk.HoldsTree.copies {d : Disk} {root : Bytes} {tree : Listing}
    {content : List FileName → Bytes} (h : d.HoldsTree root tree content) :
    d.Copies (readDirPaths root tree) (packedFiles tree content) := by
  rw [Disk.copies_iff, readDirPaths_eq, packedFiles, List.map_map, List.map_map]
  refine List.map_congr_left fun names hnames => ?_
  have hread := Disk.contentAt_eq_some.mpr (h names (mem_sortedPaths.mp hnames))
  exact Prod.ext rfl hread

/-- No two files are called alike once their names are text. -/
def Listing.CalledApart (tree : Listing) : Prop :=
  (tree.filePaths.map fun names => (relPath names).bytes).Nodup

/-- The order in which files are listed does not matter. -/
theorem packedFiles_congr {tree tree' : Listing} (content : List FileName → Bytes)
    (hfiles : tree.filePaths.Perm tree'.filePaths) (hapart : tree.CalledApart) :
    packedFiles tree content = packedFiles tree' content := by
  rw [packedFiles, packedFiles, sortedPaths, sortedPaths, sortBy_congr hfiles hapart]

/-- The entries of a directory, then those of another one. -/
def Listing.append : Listing → Listing → Listing
  | .done, other => other
  | .file name rest, other => .file name (rest.append other)
  | .special name rest, other => .special name (rest.append other)
  | .dir name content rest, other => .dir name content (rest.append other)

/-- The directory listed the other way round, with all directories below it. -/
def Listing.reverse : Listing → Listing
  | .done => .done
  | .file name rest => rest.reverse.append (.file name .done)
  | .special name rest => rest.reverse.append (.special name .done)
  | .dir name content rest => rest.reverse.append (.dir name content.reverse .done)

theorem Listing.filePaths_append (a b : Listing) :
    (a.append b).filePaths = a.filePaths ++ b.filePaths := by
  induction a with
  | done => rfl
  | file name rest ih => exact congrArg (_ :: ·) ih
  | special name rest ih => exact ih
  | dir name content rest _ ih =>
    rw [Listing.append, Listing.filePaths, Listing.filePaths, ih, List.append_assoc]

theorem Listing.filePaths_reverse (tree : Listing) :
    tree.reverse.filePaths = tree.filePaths.reverse := by
  induction tree with
  | done => rfl
  | file name rest ih =>
    rw [Listing.reverse, Listing.filePaths_append, ih]
    exact List.reverse_cons.symm
  | special name rest ih =>
    rw [Listing.reverse, Listing.filePaths_append, ih]
    exact List.append_nil _
  | dir name content rest ihcontent ihrest =>
    have hblock : (Listing.dir name content.reverse .done).filePaths =
        (content.filePaths.map (name :: ·)).reverse := by
      show content.reverse.filePaths.map (name :: ·) ++ [] = _
      rw [List.append_nil, ihcontent, List.map_reverse]
    rw [Listing.reverse, Listing.filePaths_append, ihrest, hblock]
    exact List.reverse_append.symm

theorem diskPath_inj {root : Bytes} {names names' : List FileName}
    (h : diskPath root names = diskPath root names') : names = names' := by
  have hcomponents := congrArg components h
  rw [components_diskPath, components_diskPath, List.append_cancel_left_eq] at hcomponents
  refine List.map_injective_iff.mpr ?_ hcomponents
  intro a b hab
  exact Subtype.ext (Component.normal.inj hab)

/-- The order of the entries does not show exactly where no two files are called alike: two of them
that are keep the order in which they were listed. -/
theorem listing_order_irrelevant_iff (root : Bytes) {tree : Listing}
    (hnodup : tree.filePaths.Nodup) : (∀ tree' : Listing, tree.filePaths.Perm tree'.filePaths →
      readDirPaths root tree = readDirPaths root tree') ↔ tree.CalledApart := by
  constructor
  · intro h
    by_contra hsame
    obtain ⟨x, hx⟩ := not_forall_not.mp (mt List.nodup_iff_sublist.mpr hsame)
    obtain ⟨found, hfound, hmap⟩ := List.sublist_map_iff.mp hx
    obtain ⟨a, rest, rfl, ha, hrest⟩ := List.map_eq_cons_iff.mp hmap.symm
    obtain ⟨b, rest', rfl, hb, hnil⟩ := List.map_eq_cons_iff.mp hrest
    obtain rfl := List.map_eq_nil_iff.mp hnil
    -- one listing keeps the two in this order, the other one in the opposite order
    have hkeys : (relPath a).bytes = (relPath b).bytes := ha.trans hb.symm
    have hforward : [a, b].Sublist (sortedPaths tree) := pair_sublist_sortBy hkeys hfound
    have hbackward : [b, a].Sublist (sortedPaths tree.reverse) := by
      refine pair_sublist_sortBy hkeys.symm ?_
      rw [Listing.filePaths_reverse]
      exact hfound.reverse
    have hperm : tree.filePaths.Perm tree.reverse.filePaths := by
      rw [Listing.filePaths_reverse]
      exact (List.reverse_perm _).symm
    have hsorted : sortedPaths tree = sortedPaths tree.reverse := by
      have hlists := h tree.reverse hperm
      rw [readDirPaths_eq, readDirPaths_eq] at hlists
      refine List.map_injective_iff.mpr ?_ hlists
      intro names names' he
      exact diskPath_inj (congrArg Prod.snd he)
    rw [← hsorted] at hbackward
    exact not_sublist_swap ((sortBy_perm _ _).nodup_iff.mpr hnodup) hforward hbackward
  · intro hapart tree' hfiles
    rw [readDirPaths_eq, readDirPaths_eq, sortedPaths, sortedPaths, sortBy_congr hfiles hapart]

section

variable [Blake3] [FastCDC]

/-- What is packed of a directory, copied or only referenced. -/
theorem Store.ingestTreeFiles_directory {d : Disk} {root : Bytes} {tree : Listing}
    {content : List FileName → Bytes} {noCopy : Bool} (s : Store) (name : Option Text)
    (h : d.HoldsTree root tree content) (htakes : d.Takes noCopy (readDirPaths root tree)
      (treeBytes (packedFiles tree content)).length) :
    (s.ingestTreeFiles d (readDirPaths root tree) name noCopy).1 =
      .ok (@Manifest.fromFiles _ FastCDC.streaming (packedFiles tree content) name) := by
  obtain ⟨b, hb⟩ := Store.ingestDiskFiles_of_takes (s := s) (b := ⟨[], [], 0⟩) h.copies htakes
    (Nat.le_refl _)
  have hequal : ∀ m, (s.ingestTreeFiles d (readDirPaths root tree) name noCopy).1 = .ok m →
      m = @Manifest.fromFiles _ FastCDC.streaming (packedFiles tree content) name := by
    intro m hm
    obtain ⟨files, hcopies, rfl⟩ := Store.ingestTreeFiles_ok hm
    rw [hcopies.unique h.copies]
  rcases hd : s.ingestDiskFiles d noCopy (readDirPaths root tree) ⟨[], [], 0⟩ with ⟨e | b', d', s'⟩
  · rw [hd] at hb
    cases hb
  · have hok : ∃ m, (s.ingestTreeFiles d (readDirPaths root tree) name noCopy).1 = .ok m := by
      rw [Store.ingestTreeFiles, hd]
      exact ⟨_, rfl⟩
    obtain ⟨m, hm⟩ := hok
    rw [hm, hequal m hm]

/-- The same files have the same manifest. Two directories with the same regular files, on any two
machines, at any places, listed in any order, with any empty directories and special files beside
them, are read alike by both readers and packed under one manifest, in whatever state the stores
are and whether the files are copied or only referenced, as long as no two of the names read alike
once they are text. -/
theorem same_files_same_manifest {d d' : Disk} {root root' : Bytes} {tree tree' : Listing}
    {content : List FileName → Bytes} {noCopy noCopy' : Bool} (s s' : Store) (name : Option Text)
    (hfiles : tree.filePaths.Perm tree'.filePaths) (hapart : tree.CalledApart)
    (h : d.HoldsTree root tree content) (h' : d'.HoldsTree root' tree' content)
    (htakes : d.Takes noCopy (readDirPaths root tree)
      (treeBytes (packedFiles tree content)).length)
    (htakes' : d'.Takes noCopy' (readDirPaths root' tree')
      (treeBytes (packedFiles tree' content)).length) :
    (∃ files, readDirTree d root tree = some files ∧ readDirTree d' root' tree' = some files) ∧
    ∃ m, (s.ingestTreeFiles d (readDirPaths root tree) name noCopy).1 = .ok m ∧
      (s'.ingestTreeFiles d' (readDirPaths root' tree') name noCopy').1 = .ok m := by
  have hsame := packedFiles_congr content hfiles hapart
  refine ⟨⟨packedFiles tree content, readDirTree_eq_some.mpr h.copies, ?_⟩, _,
    Store.ingestTreeFiles_directory s name h htakes, ?_⟩
  · rw [hsame]
    exact readDirTree_eq_some.mpr h'.copies
  · rw [hsame]
    exact Store.ingestTreeFiles_directory s' name h' htakes'

end

def nameX : FileName := ⟨ascii "x", by decide⟩
def nameY : FileName := ⟨ascii "y", by decide⟩

/-- Two files, and the same files listed the other way round beside an empty directory. -/
def listingOfXY : Listing := .file nameX (.file nameY .done)

def listingOfYX : Listing :=
  .dir ⟨ascii "q", by decide⟩ .done (.file nameY (.file nameX .done))

/-- Each file contains its name. -/
def ownName (names : List FileName) : Bytes := (names.map Subtype.val).flatten

/-- A fresh store beside a directory with these two files. -/
def besideXY (root : Bytes) : Disk :=
  ⟨[], [], ∅, ∅, (Finmap.singleton (root ++ ascii "/x") (.file (ascii "x"))).insert
    (root ++ ascii "/y") (.file (ascii "y")), some⟩

/-- The two directories are read alike, and packed alike with copies and without. -/
theorem same_files_same_manifest_xy :
    let _ := blake3OfX
    let _ := minFastCDC
    let s : Store := ⟨∅, ∅, 0, 0, ⟨0, 0⟩⟩
    (∃ files, readDirTree (besideXY (ascii "/d")) (ascii "/d") listingOfXY = some files ∧
      readDirTree (besideXY (ascii "/e")) (ascii "/e") listingOfYX = some files) ∧
    ∃ m, (s.ingestTreeFiles (besideXY (ascii "/d"))
        (readDirPaths (ascii "/d") listingOfXY) none false).1 = .ok m ∧
      (s.ingestTreeFiles (besideXY (ascii "/e"))
        (readDirPaths (ascii "/e") listingOfYX) none true).1 = .ok m := by
  intro _ _ s
  have hswap : listingOfXY.filePaths.Perm listingOfYX.filePaths := List.Perm.swap _ _ _
  have hd : (besideXY (ascii "/d")).HoldsTree (ascii "/d") listingOfXY ownName := by
    intro names hnames
    rcases List.mem_pair.mp hnames with rfl | rfl
    all_goals decide
  have he : (besideXY (ascii "/e")).HoldsTree (ascii "/e") listingOfYX ownName := by
    intro names hnames
    rcases List.mem_pair.mp hnames with rfl | rfl
    all_goals decide
  have hroom : (besideXY (ascii "/d")).Takes false (readDirPaths (ascii "/d") listingOfXY)
      (treeBytes (packedFiles listingOfXY ownName)).length := by
    intro id
    rw [besideXY, Finmap.lookup_empty, MAX_FILE]
    decide
  have hpaths : (besideXY (ascii "/e")).Takes true (readDirPaths (ascii "/e") listingOfYX)
      (treeBytes (packedFiles listingOfYX ownName)).length :=
    fun f _ => Option.some_ne_none f.2
  exact same_files_same_manifest _ _ none hswap (by rw [Listing.CalledApart]; decide) hd he hroom
    hpaths

end Np2ptp
