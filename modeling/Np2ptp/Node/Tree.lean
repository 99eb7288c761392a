import Mathlib.Data.List.Sort
import Np2ptp.Bridge.Bencode

/-!
# What the writers pack

`read_dir_paths` of `np2ptp-node/src/lib.rs`, which walks a directory that is packed, and the parser
of torrent files put paths into manifests. The check that all exporters make is stricter than both:
it accepts exactly the paths whose names are portable (`writers_exported_iff`).
-/

namespace Np2ptp

open Lib

/-- A file name on Unix. -/
abbrev FileName := { name : Bytes //
  name ≠ [] ∧ 47 ∉ name ∧ 0 ∉ name ∧ name ≠ ascii "." ∧ name ≠ ascii ".." }

/-- What a directory holds, in the order in which `read_dir` lists it: regular files, directories,
and what is neither. -/
inductive Listing where
  | done
  | file (name : FileName) (rest : Listing)
  | special (name : FileName) (rest : Listing)
  | dir (name : FileName) (content rest : Listing)

/-- `Component::as_os_str`. -/
def Component.asOsStr : Component → Bytes
  | .rootDir => ascii "/"
  | .curDir => ascii "."
  | .parentDir => ascii ".."
  | .normal name => name

/-- `path.strip_prefix(base).unwrap_or(&path)`, by components. -/
def stripBase (base path : Bytes) : List Component :=
  if (components base).isPrefixOf (components path) then
    (components path).drop (components base).length
  else components path

/-- The relative path of a file, as it goes into a manifest. -/
def relStr (base path : Bytes) : Text :=
  .join ((stripBase base path).map fun c => .ofLossy c.asOsStr)

/-- The inner function of `read_dir_paths`. -/
def walk (base dir : Bytes) : Listing → List (Text × Bytes)
  | .done => []
  | .file name rest =>
    (relStr base (push dir name), push dir name) :: walk base dir rest
  | .special _ rest => walk base dir rest
  | .dir name content rest => walk base (push dir name) content ++ walk base dir rest

/-- `read_dir_paths`: the regular files, sorted by their relative paths. -/
def readDirPaths (root : Bytes) (tree : Listing) : List (Text × Bytes) :=
  (walk root root tree).insertionSort fun a b => a.1.bytes ≤ b.1.bytes

/-- The names on the way to each regular file. -/
def Listing.filePaths : Listing → List (List FileName)
  | .done => []
  | .file name rest => [name] :: rest.filePaths
  | .special _ rest => rest.filePaths
  | .dir name content rest => content.filePaths.map (name :: ·) ++ rest.filePaths

/-- A name pushed onto a directory is one component more. -/
theorem components_push_name (dir : Bytes) (name : FileName) :
    components (push dir name) = components dir ++ [.normal name] := by
  obtain ⟨name, hne, hslash, -, hdot, hup⟩ := name
  dsimp only
  have hfield : fieldComponents name = [.normal name] := by
    unfold fieldComponents
    rw [if_neg (not_or.mpr ⟨hne, hdot⟩), if_neg hup]
  have hhead : name.head? ≠ some 47 := fun h => hslash (List.mem_of_mem_head? h)
  have hsplit := List.splitOn_eq_singleton hslash
  by_cases hdir : dir = []
  · rw [hdir, push_nil, components_eq hsplit, if_neg hhead, if_neg hdot, hfield]
    rfl
  · rw [components_push hdir hhead, hsplit, List.flatMap_singleton, hfield]

/-- What is left of a path below the base. -/
theorem relStr_eq {base path : Bytes} {names : List FileName} (hne : names ≠ [])
    (h : components path = components base ++ names.map fun n => .normal n.1) :
    (relStr base path).bytes = Bencode.lossyPath (names.map Subtype.val) := by
  have hbelow : (components base).isPrefixOf (components path) = true := by
    rw [h]
    exact List.isPrefixOf_iff_prefix.mpr (List.prefix_append _ _)
  have hstrip : stripBase base path = names.map fun n => .normal n.1 := by
    unfold stripBase
    rw [if_pos hbelow, h, List.drop_left]
  have hparts : (names.map fun n => Component.normal n.1).map (fun c => Text.ofLossy c.asOsStr) =
      (names.map Subtype.val).map Text.ofLossy := by
    rw [List.map_map, List.map_map]
    rfl
  unfold relStr
  rw [hstrip, hparts, Text.join_ofLossy (fun h => hne (List.map_eq_nil_iff.mp h))]
  rfl

/-- The walk lists the regular files by the names on the way to them. -/
theorem map_walk (base : Bytes) (tree : Listing) : ∀ (dir : Bytes) (names : List FileName),
    components dir = (components base ++ names.map fun n => .normal n.1) →
    (walk base dir tree).map (fun f => f.1.bytes) =
      tree.filePaths.map fun below => Bencode.lossyPath ((names ++ below).map Subtype.val) := by
  have hpush {dir : Bytes} {names : List FileName}
      (h : components dir = components base ++ names.map fun n => .normal n.1) (name : FileName) :
      components (push dir name) =
        components base ++ (names ++ [name]).map fun n => .normal n.1 := by
    rw [components_push_name, h, List.map_append, List.append_assoc]
    rfl
  induction tree with
  | done => exact fun _ _ _ => rfl
  | file name rest ih =>
    intro dir names h
    rw [walk, List.map_cons, ih dir names h, Listing.filePaths, List.map_cons,
      relStr_eq (by simp) (hpush h name)]
  | special name rest ih => exact ih
  | dir name content rest ihcontent ihrest =>
    intro dir names h
    rw [walk, List.map_append, ihcontent _ _ (hpush h name), ihrest dir names h,
      Listing.filePaths, List.map_append, List.map_map]
    congr 1
    refine List.map_congr_left fun below _ => ?_
    rw [List.append_assoc]
    rfl

theorem ne_nil_of_mem_filePaths {tree : Listing} : ∀ names ∈ tree.filePaths, names ≠ [] := by
  induction tree with
  | done => exact fun names h => nomatch h
  | file name rest ih =>
    exact List.forall_mem_cons.mpr ⟨List.cons_ne_nil _ _, ih⟩
  | special name rest ih => exact ih
  | dir name content rest _ ihrest =>
    intro names h
    rcases List.mem_append.mp h with h | h
    · obtain ⟨below, -, rfl⟩ := List.mem_map.mp h
      exact List.cons_ne_nil _ _
    · exact ihrest names h

/-- Names on Unix, joined, are the fields of a relative path. -/
theorem splitOn_names {names : List FileName} (hne : names ≠ []) :
    ([47].intercalate (names.map Subtype.val)).splitOn 47 = names.map Subtype.val := by
  refine List.splitOn_intercalate 47 (fun f hf => ?_) fun h => hne (List.map_eq_nil_iff.mp h)
  obtain ⟨name, -, rfl⟩ := List.mem_map.mp hf
  exact name.2.2.1

theorem relative_names {names : List FileName} (hne : names ≠ []) :
    Relative (Bencode.lossyPath (names.map Subtype.val)) := by
  refine .of_fields fun f hf => ?_
  rw [Bencode.lossyPath, splitOn_lossy (by decide), splitOn_names hne] at hf
  obtain ⟨_, hg, rfl⟩ := List.mem_map.mp hf
  obtain ⟨⟨name, hname, -, -, hdot, hup⟩, -, rfl⟩ := List.mem_map.mp hg
  refine ⟨fun h => hname (lossy_eq_nil.mp h), fun h => hdot ?_, fun h => hup ?_⟩
  · exact (lossy_eq_ascii (ascii_lt (by decide))).mp h
  · exact (lossy_eq_ascii (ascii_lt (by decide))).mp h

/-- The directories whose files every writer takes. -/
theorem readDirPaths_exported_iff (root : Bytes) (tree : Listing) :
    (∀ f ∈ readDirPaths root tree, validateRelativePath f.1.bytes = .ok ()) ↔
      ∀ names ∈ tree.filePaths, ∀ name ∈ names, Portable name.1 := by
  have hsorted : (∀ f ∈ readDirPaths root tree, validateRelativePath f.1.bytes = .ok ()) ↔
      ∀ b ∈ (walk root root tree).map (fun f => f.1.bytes), validateRelativePath b = .ok () := by
    rw [List.forall_mem_map]
    exact forall_congr' fun f => imp_congr_left (List.perm_insertionSort _ _).mem_iff
  rw [hsorted, map_walk root tree root [] (by simp), List.forall_mem_map]
  refine forall₂_congr fun names hnames => ?_
  have hne := ne_nil_of_mem_filePaths names hnames
  rw [List.nil_append, Bencode.lossyPath, validateRelativePath_lossy (relative_names hne),
    splitOn_names hne, List.forall_mem_map]
  refine forall₂_congr fun name _ => ?_
  rw [or_iff_right name.2.1, or_iff_right name.2.2.2.2.1]

/-- When what the writers pack can be exported: the paths of a directory that is packed pass the
check of the exporters if and only if all names on the way to its regular files are portable, and
the paths of a torrent that is accepted do if and only if all names between the slashes of its path
segments are, the empty ones and those that are a dot left out. -/
theorem writers_exported_iff [Sha1] :
    (∀ root tree, (∀ f ∈ readDirPaths root tree, validateRelativePath f.1.bytes = .ok ()) ↔
      ∀ names ∈ tree.filePaths, ∀ name ∈ names, Portable name.1) ∧
    ∀ bytes torrent info infoBytes, Bencode.parseTorrentFile bytes = .ok torrent →
      Bencode.parseInfo bytes = .ok (info, infoBytes) →
      ((∀ f ∈ torrent.files, validateRelativePath f.path.bytes = .ok ()) ↔
        ∀ segments ∈ info.paths, ∀ segment ∈ segments, ∀ field ∈ segment.splitOn 47,
          field = [] ∨ field = ascii "." ∨ Portable field) := by
  refine ⟨readDirPaths_exported_iff, fun bytes torrent info infoBytes htorrent hinfo => ?_⟩
  obtain ⟨info', infoBytes', hinfo', hnamed⟩ := Bencode.named_of_parseTorrentFile htorrent
  cases hinfo.symm.trans hinfo'
  exact hnamed.validateRelativePath_iff

/-! ## A name with a colon -/

/-- A directory with one file. -/
def fileNamed (name : String) (h : ascii name ≠ [] ∧ 47 ∉ ascii name ∧ 0 ∉ ascii name ∧
    ascii name ≠ ascii "." ∧ ascii name ≠ ascii "..") : Listing :=
  .file ⟨ascii name, h⟩ .done

/-- A file `a` and a torrent of a file `a` are packed and exported. -/
theorem writers_exported_a :
    let _ := sha1OfX
    (∀ f ∈ readDirPaths (ascii "d") (fileNamed "a" (by decide)),
      validateRelativePath f.1.bytes = .ok ()) ∧
    ∃ torrent, Bencode.parseTorrentFile (Bencode.torrentNamed "a") = .ok torrent ∧
      ∀ f ∈ torrent.files, validateRelativePath f.path.bytes = .ok () := by
  intro _
  obtain ⟨hdir, htorrent⟩ := writers_exported_iff
  have hparsed : (Bencode.parseTorrentFile (Bencode.torrentNamed "a")).toOption.isSome := by
    decide +kernel
  obtain ⟨torrent, hsome⟩ := Option.isSome_iff_exists.mp hparsed
  have hok := toOption_eq_some.mp hsome
  obtain ⟨info, infoBytes, hinfo, -⟩ := Bencode.named_of_parseTorrentFile hok
  have hpaths : (Bencode.parseInfo (Bencode.torrentNamed "a")).toOption.map (fun i => i.1.paths) =
      some [[ascii "a"]] := by decide +kernel
  rw [hinfo] at hpaths
  have hinfoPaths : info.paths = [[ascii "a"]] := Option.some.inj hpaths
  refine ⟨(hdir _ _).mpr (by decide), torrent, hok, ?_⟩
  refine (htorrent _ torrent info infoBytes hok hinfo).mpr ?_
  rw [hinfoPaths]
  decide

/-- A file `a:b` is packed, and a torrent of it is accepted, under a path that the check refuses. -/
theorem colon_refused :
    let _ := sha1OfX
    (readDirPaths (ascii "d") (fileNamed "a:b" (by decide))).map
        (fun f => (f.1.bytes, (validateRelativePath f.1.bytes).isOk)) =
      [(ascii "a:b", false)] ∧
    (Bencode.parseTorrentFile (Bencode.torrentNamed "a:b")).toOption.map
        (fun torrent => torrent.files.map fun f =>
          (f.path.bytes, (validateRelativePath f.path.bytes).isOk)) =
      some [(ascii "a:b", false)] := by
  decide +kernel

end Np2ptp
