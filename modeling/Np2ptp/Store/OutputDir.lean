import Np2ptp.Lib.FileTree
import Np2ptp.Core.PathLaws
import Np2ptp.Store.ExportLaws

/-!
# What an export leaves in its directory

`export_tree_to_dir` with the directory it writes into. The tree is what stands below the output
directory, apart from the store's own directory and from the sources of its references; links are
left out, and what else the platform refuses to create is a parameter. Entries are written one after
the other and a file is truncated when it is created, so of two entries that lead to one file the
later one stays. Paths lead to one file when they differ in empty and `.` fields only
(`destination_eq_iff`), and the export keeps every file exactly where such entries agree
(`export_keeps_files_iff`).
-/

namespace Np2ptp

open Lib

/-! ## Destinations -/

/-- A field that names something: `PathBuf::components` skips the others. -/
def isName (field : Bytes) : Bool := decide (field ≠ [] ∧ field ≠ ascii ".")

/-- The names that a relative path leads along. -/
def pathNames (path : Bytes) : List Bytes := (path.splitOn 47).filter isName

/-- The last field names something. A path that ends in a slash or in `/.` is one of a directory,
and `File::create` fails on it. -/
def endsInName (path : Bytes) : Bool := (path.splitOn 47).getLast?.any isName

/-- What stands below an output directory. -/
abbrev OutputTree := FileTree Bytes Bytes

/-- Reading a path: the file at the names that follow the output directory. -/
def ReadsAt (out : Bytes) (t : OutputTree) (path bytes : Bytes) : Prop :=
  ∃ names : List Bytes, components path = components out ++ names.map .normal ∧
    t.node names = some (.file bytes)

theorem filter_isName {fields names : List Bytes}
    (h : fields.flatMap fieldComponents = names.map .normal) : fields.filter isName = names := by
  induction fields generalizing names with
  | nil => exact (List.map_eq_nil_iff.mp h.symm).symm
  | cons field fields ih =>
    rw [List.flatMap_cons] at h
    unfold fieldComponents at h
    split at h
    · next hskip =>
      have hname : isName field = false := decide_eq_false (not_and_or.mpr (by simpa using hskip))
      rw [List.filter_cons_of_neg (by rw [hname]; exact Bool.false_ne_true)]
      exact ih h
    · next hkeep =>
      have hname : isName field = true := by simpa [isName] using hkeep
      split at h
      · cases names with
        | nil => cases h
        | cons name names => cases (List.cons.inj h).1
      · cases names with
        | nil => cases h
        | cons name names =>
          obtain ⟨hhead, htail⟩ := List.cons.inj h
          cases hhead
          rw [List.filter_cons_of_pos hname, ih htail]

/-- A destination is the output directory and the names of the path. -/
theorem components_destination {path : Bytes} (h : validateRelativePath path = .ok ())
    (out : Bytes) : components (destination out path) =
      components out ++ (pathNames path).map .normal := by
  have hrelative := (validateRelativePath_eq_ok.mp h).1
  obtain ⟨names, -, -, hfields⟩ := hrelative.components_eq
  rw [hrelative.components_destination, hfields, pathNames, filter_isName hfields]

theorem map_normal_inj {names names' : List Bytes} :
    names.map Component.normal = names'.map .normal ↔ names = names' :=
  ⟨fun h => List.map_injective_iff.mpr (fun _ _ e => Component.normal.inj e) h, fun h => h ▸ rfl⟩

/-- Two paths lead to one file exactly where they have the same fields but for empty ones
and `.`. -/
theorem destination_eq_iff {path path' : Bytes} (h : validateRelativePath path = .ok ())
    (h' : validateRelativePath path' = .ok ()) (out : Bytes) :
    components (destination out path) = components (destination out path') ↔
      pathNames path = pathNames path' := by
  rw [components_destination h, components_destination h', List.append_cancel_left_eq,
    map_normal_inj]

/-- A destination holds what its names hold. -/
theorem readsAt_destination {path : Bytes} (h : validateRelativePath path = .ok ()) {out : Bytes}
    {t : OutputTree} {bytes : Bytes} : ReadsAt out t (destination out path) bytes ↔
      t.node (pathNames path) = some (.file bytes) := by
  unfold ReadsAt
  rw [components_destination h]
  constructor
  · rintro ⟨names, hnames, hnode⟩
    rwa [map_normal_inj.mp (List.append_cancel_left hnames)]
  · exact fun hnode => ⟨_, rfl, hnode⟩

/-! ## Writing a file -/

section

variable (refuses : List Bytes → Bool)

/-- `create_dir_all` on the parent of a destination, and the file created and written. -/
def land (t : OutputTree) (path bytes : Bytes) : Bool × OutputTree :=
  if endsInName path then t.write refuses (pathNames path) bytes
  else (false, (t.createDirAll refuses (pathNames path).dropLast).2)

/-- Files landed one after the other, up to the first that fails. -/
def landAll : OutputTree → List (Text × Bytes) → Bool × OutputTree
  | t, [] => (true, t)
  | t, (path, bytes) :: files =>
    match land refuses t path.bytes bytes with
    | (true, t) => landAll t files
    | (false, t) => (false, t)

/-- The names and the bytes of the files to be written. -/
def placesOf (files : List (Text × Bytes)) : List (List Bytes × Bytes) :=
  files.map fun f => (pathNames f.1.bytes, f.2)

variable {refuses}

/-- Files that all land are written to their names. -/
theorem landAll_ok {files : List (Text × Bytes)} {t t' : OutputTree}
    (h : landAll refuses t files = (true, t')) :
    t.writeAll refuses (placesOf files) = (true, t') := by
  induction files generalizing t with
  | nil => exact h
  | cons f files ih =>
    rw [landAll] at h
    split at h
    · next t1 hland =>
      unfold land at hland
      split at hland
      · have hrest := ih h
        unfold placesOf at hrest ⊢
        rw [List.map_cons, FileTree.writeAll, hland]
        exact hrest
      · cases hland
    · cases h

end

/-! ## The export with its directory -/

section

variable [Blake3]

/-- The body of the outer loop of `export_tree_to_dir` once the file is created: how it ends and
what the file holds by then. -/
def Store.exportEntry (d : Disk) (m : Manifest) (entry : FileEntry) (s : Store) :
    Outcome × Bytes × Store :=
  if 2 ^ 64 ≤ entry.chunkStart.toNat + entry.chunkCount.toNat then (.overflow, [], s)
  else Store.exportRange d m entry.chunkCount.toNat entry.chunkStart.toNat [] s

variable (refuses : List Bytes → Bool)

/-- The outer loop of `export_tree_to_dir`, on the output directory. Where a file cannot be created
its chunks are not read. -/
def Store.exportFilesInto (d : Disk) (m : Manifest) :
    List FileEntry → OutputTree → Store → Outcome × OutputTree × Store
  | [], t, s => (.ok, t, s)
  | entry :: files, t, s =>
    match validateRelativePath entry.path.bytes with
    | .error _ => (.err (.unsafePath entry.path), t, s)
    | .ok () =>
      let (r, w, s') := Store.exportEntry d m entry s
      match land refuses t entry.path.bytes w with
      | (false, t) => (.err .io, t, s)
      | (true, t) => if r = .ok then Store.exportFilesInto d m files t s' else (r, t, s')

/-- `Store::export_tree_to_dir`, on the output directory. -/
def Store.exportTreeInto (d : Disk) (s : Store) (m : Manifest) (t : OutputTree) :
    Outcome × OutputTree × Store :=
  if m.rootIsConsistent then Store.exportFilesInto refuses d m m.files t s
  else (.err (.corrupt m.root), t, s)

variable {refuses}

/-- The outer loop without a directory, file by file. -/
theorem Store.exportFiles_cons {d : Disk} {m : Manifest} {entry : FileEntry}
    (hpath : validateRelativePath entry.path.bytes = .ok ()) (files : List FileEntry)
    (acc : List (Text × Bytes)) {r : Outcome} {w : Bytes} {s s' : Store}
    (hentry : Store.exportEntry d m entry s = (r, w, s')) :
    Store.exportFiles d m (entry :: files) acc s =
      if r = .ok then Store.exportFiles d m files (acc ++ [(entry.path, w)]) s'
      else (r, acc ++ [(entry.path, w)], s') := by
  rw [Store.exportFiles, hpath]
  unfold Store.exportEntry at hentry
  split at hentry
  · next hover =>
    cases hentry
    dsimp only
    rw [if_pos hover, if_neg Outcome.noConfusion]
  · next hfits =>
    dsimp only
    rw [if_neg hfits, hentry]
    cases r <;> rfl

/-- The directory refines the list of what is written: the export ends as it does without a
directory and what it wrote has landed, or the platform failed. -/
theorem Store.exportFilesInto_spec {d : Disk} {m : Manifest} {files : List FileEntry}
    (acc : List (Text × Bytes)) (t : OutputTree) (s : Store) : ∃ r out s',
      Store.exportFiles d m files acc s = (r, acc ++ out, s') ∧
      ((∃ t', landAll refuses t out = (true, t') ∧
          Store.exportFilesInto refuses d m files t s = (r, t', s')) ∨
        (Store.exportFilesInto refuses d m files t s).1 = .err .io) := by
  induction files generalizing acc t s with
  | nil => exact ⟨.ok, [], s, by rw [List.append_nil]; rfl, .inl ⟨t, rfl, rfl⟩⟩
  | cons entry files ih =>
    rw [Store.exportFilesInto]
    cases hpath : validateRelativePath entry.path.bytes with
    | error e =>
      refine ⟨_, [], s, ?_, .inl ⟨t, rfl, rfl⟩⟩
      rw [Store.exportFiles, hpath, List.append_nil]
    | ok u =>
      rcases hentry : Store.exportEntry d m entry s with ⟨r, w, s'⟩
      rw [Store.exportFiles_cons hpath files acc hentry]
      dsimp only
      by_cases hr : r = .ok
      · obtain ⟨r', out, s'', hfiles, hinto⟩ :=
          ih (acc ++ [(entry.path, w)]) (land refuses t entry.path.bytes w).2 s'
        refine ⟨r', (entry.path, w) :: out, s'', ?_, ?_⟩
        · rw [if_pos hr, hfiles, List.append_assoc]
          rfl
        · rcases hland : land refuses t entry.path.bytes w with ⟨_ | _, t1⟩
          · exact .inr rfl
          · rw [hland] at hinto
            dsimp only at hinto ⊢
            rw [if_pos hr, landAll, hland]
            exact hinto
      · refine ⟨r, [(entry.path, w)], s', by rw [if_neg hr], ?_⟩
        rcases hland : land refuses t entry.path.bytes w with ⟨_ | _, t1⟩
        · exact .inr rfl
        · dsimp only
          rw [if_neg hr, landAll, hland]
          exact .inl ⟨t1, rfl, rfl⟩

/-- An export that ends otherwise than by a failure of the platform has landed what it wrote. -/
theorem Store.exportTreeInto_eq {d : Disk} {s s' : Store} {m : Manifest} {t t' : OutputTree}
    {r : Outcome} (h : s.exportTreeInto refuses d m t = (r, t', s')) (hio : r ≠ .err .io) :
    ∃ out, s.exportTreeToDir d m = (r, out, s') ∧ landAll refuses t out = (true, t') := by
  unfold Store.exportTreeInto at h
  unfold Store.exportTreeToDir
  split at h
  · next hroot =>
    obtain ⟨r', out, s1, hfiles, ⟨t1, hland, hinto⟩ | hfailed⟩ :=
      @Store.exportFilesInto_spec _ refuses d m m.files [] t s
    · rw [hinto] at h
      cases h
      exact ⟨out, by rw [if_pos hroot]; exact hfiles, hland⟩
    · rw [h] at hfailed
      exact absurd hfailed hio
  · next hroot =>
    cases h
    exact ⟨[], by rw [if_neg hroot], rfl⟩

/-! ## Nothing is lost -/

/-- What the export is for: every entry is read back at its destination, and no two entries with
different contents have the same one. The contents of the entries are what the store holds of their
chunks. -/
structure KeepsFiles (out : Bytes) (t : OutputTree) (contents : List (Text × Bytes)) : Prop where
  readBack : ∀ f ∈ contents, ReadsAt out t (destination out f.1.bytes) f.2
  apart : ∀ f ∈ contents, ∀ g ∈ contents,
    components (destination out f.1.bytes) = components (destination out g.1.bytes) → f.2 = g.2

/-- An export keeps every file exactly where the entries whose paths differ in empty and `.` fields
only, or not at all, have the same contents. -/
theorem export_keeps_files_iff {d : Disk} {s s' : Store} {m : Manifest} {t' : OutputTree}
    (out : Bytes) (h : s.exportTreeInto refuses d m .empty = (.ok, t', s')) :
    ∃ contents, Store.readFiles d m m.files s = (some contents, s') ∧
      contents.map Prod.fst = m.files.map FileEntry.path ∧
      (KeepsFiles out t' contents ↔ ∀ f ∈ contents, ∀ g ∈ contents,
        pathNames f.1.bytes = pathNames g.1.bytes → f.2 = g.2) := by
  obtain ⟨contents, hdir, hland⟩ := Store.exportTreeInto_eq h Outcome.noConfusion
  obtain ⟨-, hall, hread⟩ := Store.exportTreeToDir_ok_iff.mp hdir
  have hpaths := Store.readFiles_paths hread
  have hvalid : ∀ f ∈ contents, validateRelativePath f.1.bytes = .ok () := by
    intro f hf
    have hmem : f.1 ∈ m.files.map FileEntry.path := hpaths ▸ List.mem_map_of_mem hf
    obtain ⟨entry, hentry, hpath⟩ := List.mem_map.mp hmem
    exact hpath ▸ (hall entry hentry).1
  have hkept : (∀ f ∈ contents, ReadsAt out t' (destination out f.1.bytes) f.2) ↔
      ∀ f ∈ contents, ∀ g ∈ contents, pathNames f.1.bytes = pathNames g.1.bytes → f.2 = g.2 := by
    have hwrites := FileTree.writeAll_reads_back_iff (landAll_ok hland)
    simp only [placesOf, List.forall_mem_map] at hwrites
    rw [← hwrites]
    exact forall₂_congr fun f hf => readsAt_destination (hvalid f hf)
  refine ⟨contents, hread, hpaths, fun hkeeps => hkept.mp hkeeps.readBack, fun hsame => ?_⟩
  refine ⟨hkept.mpr hsame, fun f hf g hg he => hsame f hf g hg ?_⟩
  exact (destination_eq_iff (hvalid f hf) (hvalid g hg) out).mp he

end

/-- A manifest of the byte `x` at one path and of an empty file at another. -/
def manifestAt (path empty : Text) : Manifest where
  root := rootOfX
  totalSize := 1
  chunks := [⟨digestOfX, 0, 1⟩]
  files := [⟨path, 1, 0, 1⟩, ⟨empty, 0, 1, 0⟩]
  name := none

/-- Two entries that lead to two files. -/
def apartManifest : Manifest :=
  manifestAt ⟨ascii "a//b", by decide⟩ ⟨ascii "a/c", by decide⟩

/-- Two entries that are spelled differently and lead to one file. -/
def sameManifest : Manifest :=
  manifestAt ⟨ascii "a//b", by decide⟩ ⟨ascii "a/./b", by decide⟩

theorem export_keeps_files_x :
    let _ := blake3OfX
    KeepsFiles (ascii "out")
      (storeOfX.exportTreeInto (fun _ => false) diskOfX apartManifest .empty).2.1
      [(⟨ascii "a//b", by decide⟩, [120]), (⟨ascii "a/c", by decide⟩, [])] := by
  intro _
  have hok : (storeOfX.exportTreeInto (fun _ => false) diskOfX apartManifest .empty).1 = .ok := by
    decide +kernel
  obtain ⟨contents, hread, -, hkeeps⟩ := export_keeps_files_iff (ascii "out") (Prod.ext hok rfl)
  have hcontents : (Store.readFiles diskOfX apartManifest apartManifest.files storeOfX).1 =
      some [(⟨ascii "a//b", by decide⟩, [120]), (⟨ascii "a/c", by decide⟩, [])] := by
    decide +kernel
  rw [hread] at hcontents
  obtain rfl := Option.some.inj hcontents
  refine hkeeps.mpr ?_
  decide +kernel

/-- The empty file takes the place of the other, and the export reports success. -/
theorem export_loses_a_file :
    let _ := blake3OfX
    sameManifest.rootIsConsistent = true ∧ sameManifest.validate = .ok () ∧
      (storeOfX.exportTreeInto (fun _ => false) diskOfX sameManifest .empty).1 = .ok ∧
      ∃ contents, (Store.readFiles diskOfX sameManifest sameManifest.files storeOfX).1 =
          some contents ∧
        ¬ KeepsFiles (ascii "out")
          (storeOfX.exportTreeInto (fun _ => false) diskOfX sameManifest .empty).2.1 contents := by
  intro _
  refine ⟨by decide +kernel, by decide +kernel, by decide +kernel,
    [(⟨ascii "a//b", by decide⟩, [120]), (⟨ascii "a/./b", by decide⟩, [])], by decide +kernel, ?_⟩
  intro hkeeps
  have hread := (readsAt_destination (by decide +kernel)).mp
    (hkeeps.readBack _ List.mem_cons_self)
  have hempty : (storeOfX.exportTreeInto (fun _ => false) diskOfX sameManifest .empty).2.1.node
      (pathNames (ascii "a//b")) = some (.file []) := by
    decide +kernel
  rw [hempty] at hread
  cases hread

end Np2ptp
