import Np2ptp.Node.Client
import Np2ptp.Node.Directory
import Np2ptp.Node.Output
import Np2ptp.Core.Nptp
import Np2ptp.Store.DiskIngest
import Np2ptp.Store.Restore

/-!
# Packing and getting

`cmd_pack` and `cmd_get` of `np2ptp-node/src/main.rs`. The one leaves the chunks of a directory in a
store and writes a manifest file; the other reads that file, downloads the chunks from the store
into one of its own and writes them out. Between the two stand the walk of the directory, the
chunker, both forms of ingest, the container, the opening of two stores, the download, the export
and the output directory, and together they are the identity (`packed_directory_comes_back`):
whatever else has happened to the store in the meantime, the directory that is written has the files
of the one that was packed, at the same names and with the same contents, and nothing else.
-/

namespace Np2ptp

open Lib

/-- What `fs::metadata` finds at an input. -/
inductive Input where
  | missing
  | dir (tree : Listing)
  | other

/-- What the commands return. -/
inductive CliError where
  | io
  /-- "pack: directory … contains no files" -/
  | noFiles
  /-- A panic. -/
  | overflow
  | store (e : StoreError)
  | node (e : NodeError)
  | manifest (e : ManifestError)
  deriving DecidableEq

/-- `Path::file_name`, as a text. -/
def fileName (path : Bytes) : Option Text :=
  match (components path).getLast? with
  | some (.normal name) => some (.ofLossy name)
  | _ => none

/-- `looks_like_tree`. -/
def looksLikeTree (m : Manifest) : Bool :=
  decide (1 < m.files.length) || m.files.head?.any fun f => f.path.bytes.contains 47

/-- The name that is written to: the `--out` flag, the name of the manifest if it is safe, or the
default. -/
def outputName (m : Manifest) (outFlag : Option Bytes) (fallback : Bytes) : Bytes :=
  (outFlag.or (m.name.bind sanitizeOutputName)).getD fallback

/-- What has been written where. -/
inductive Output where
  | tree (path : Bytes) (t : OutputTree)
  | file (path bytes : Bytes)

section

variable [Blake3]

/-- `cmd_pack`, up to the bytes of the manifest file. -/
def cmdPack [FastCDC] (d : Disk) (input : Bytes) (found : Input) (nameFlag : Option Text)
    (noCopy : Bool) : Except CliError Bytes × Disk :=
  match Store.open d with
  | (.error e, d) => (.error (.store e), d)
  | (.ok s, d) =>
    let name := nameFlag.or (fileName input)
    let ingest (files : List (Text × Bytes)) : Except CliError Bytes × Disk :=
      match s.ingestTreeFiles d files name noCopy with
      | (.error e, d, _) => (.error (.store e), d)
      | (.ok m, d, _) => (.ok m.toNptp, d)
    match found with
    | .missing => (.error .io, d)
    | .dir tree =>
      if readDirPaths input tree = [] then (.error .noFiles, d) else ingest (readDirPaths input tree)
    | .other => ingest [((name.or (fileName input)).getD dataPath, input)]

variable (refuses : List Bytes → Bool) (creates : Bool)

/-- `write_output_with_progress`, where `t` stands below the directory of that name. -/
def writeOutput (d : Disk) (s : Store) (m : Manifest) (outFlag : Option Bytes) (t : OutputTree) :
    Except CliError Output :=
  if looksLikeTree m then
    match s.exportTreeInto refuses d m t with
    | (.ok, t, _) => .ok (.tree (outputName m outFlag (ascii "download")) t)
    | (.err e, _, _) => .error (.store e)
    | (.overflow, _, _) => .error .overflow
  else if creates then
    match Store.exportTo d s m with
    | (.ok (), w, _) => .ok (.file (outputName m outFlag (ascii "download.out")) w)
    | (.error e, _, _) => .error (.store e)
  else .error .io

/-- `cmd_get`, on the store of the seed and the local one. -/
def cmdGet (nptp : Bytes) (seed client : Disk) (outFlag : Option Bytes) (t : OutputTree) :
    Except CliError Output × Disk × Disk :=
  match Manifest.fromNptp nptp with
  | .error e => (.error (.manifest e), seed, client)
  | .ok m =>
    match Store.open seed with
    | (.error e, seed) => (.error (.node (.store e)), seed, client)
    | (.ok source, seed) =>
      match Store.open client with
      | (.error e, client) => (.error (.store e), seed, client)
      | (.ok s, client) =>
        match download (StoreSource seed) m source client s with
        | (.error e, c) => (.error (.node e), seed, c.disk)
        | (.ok _, c) => (writeOutput refuses creates c.disk c.store m outFlag t, seed, c.disk)

end

/-! ## Directories that come back -/

/-- The names in a directory. -/
def Listing.names : Listing → List FileName
  | .done => []
  | .file name rest => name :: rest.names
  | .special name rest => name :: rest.names
  | .dir name _ rest => name :: rest.names

/-- No name is there twice, in this directory or in one below it. -/
def Listing.Distinct : Listing → Prop
  | .done => True
  | .file name rest => name ∉ rest.names ∧ rest.Distinct
  | .special name rest => name ∉ rest.names ∧ rest.Distinct
  | .dir name content rest => name ∉ rest.names ∧ content.Distinct ∧ rest.Distinct

/-- A name that is a text, and that the exporters take. -/
structure Plain (name : FileName) : Prop where
  valid : validUtf8 name.1 = true
  portable : Portable name.1

/-- What a path begins with is a name in the directory. -/
theorem Listing.head_mem_names {tree : Listing} : ∀ names ∈ tree.filePaths,
    ∃ name rest, names = name :: rest ∧ name ∈ tree.names := by
  induction tree with
  | done => exact fun names h => nomatch h
  | file name rest ih =>
    intro names h
    rcases List.mem_cons.mp h with rfl | h
    · exact ⟨name, [], rfl, List.mem_cons_self⟩
    · obtain ⟨first, below, he, hmem⟩ := ih names h
      exact ⟨first, below, he, List.mem_cons_of_mem _ hmem⟩
  | special name rest ih =>
    intro names h
    obtain ⟨first, below, he, hmem⟩ := ih names h
    exact ⟨first, below, he, List.mem_cons_of_mem _ hmem⟩
  | dir name content rest _ ih =>
    intro names h
    rcases List.mem_append.mp h with h | h
    · obtain ⟨below, -, rfl⟩ := List.mem_map.mp h
      exact ⟨name, below, rfl, List.mem_cons_self⟩
    · obtain ⟨first, below, he, hmem⟩ := ih names h
      exact ⟨first, below, he, List.mem_cons_of_mem _ hmem⟩

/-- Neither of two paths leads on from the other. -/
def Apart (a b : List FileName) : Prop := ¬ a <+: b ∧ ¬ b <+: a

theorem apart_of_head {a b : FileName} (h : a ≠ b) (as bs : List FileName) :
    Apart (a :: as) (b :: bs) :=
  ⟨fun hp => h (List.cons_prefix_cons.mp hp).1, fun hp => h (List.cons_prefix_cons.mp hp).1.symm⟩

theorem Apart.cons {as bs : List FileName} (h : Apart as bs) (a : FileName) :
    Apart (a :: as) (a :: bs) :=
  ⟨fun hp => h.1 (List.cons_prefix_cons.mp hp).2, fun hp => h.2 (List.cons_prefix_cons.mp hp).2⟩

/-- The files of a directory stand apart. -/
theorem Listing.Distinct.pairwise {tree : Listing} (h : tree.Distinct) :
    tree.filePaths.Pairwise Apart := by
  have hothers {name : FileName} {rest : Listing} (hnew : name ∉ rest.names)
      (below : List FileName) : ∀ names ∈ rest.filePaths, Apart (name :: below) names := by
    intro names hmem
    obtain ⟨first, more, rfl, hfirst⟩ := Listing.head_mem_names names hmem
    refine apart_of_head (fun he => hnew ?_) below more
    rw [he]
    exact hfirst
  induction tree with
  | done => exact List.Pairwise.nil
  | file name rest ih => exact List.pairwise_cons.mpr ⟨hothers h.1 [], ih h.2⟩
  | special name rest ih => exact ih h.2
  | dir name content rest ihcontent ihrest =>
    obtain ⟨hnew, hcontent, hrest⟩ := h
    refine List.pairwise_append.mpr ⟨?_, ihrest hrest, ?_⟩
    · exact List.pairwise_map.mpr ((ihcontent hcontent).imp fun hapart => hapart.cons name)
    · intro a ha
      obtain ⟨below, -, rfl⟩ := List.mem_map.mp ha
      exact hothers hnew below

/-- Plain names are spelled as they are. -/
theorem relPath_plain {names : List FileName} (hne : names ≠ []) (h : ∀ n ∈ names, Plain n) :
    (relPath names).bytes = [47].intercalate (names.map Subtype.val) := by
  have hlossy : (names.map Subtype.val).map lossy = names.map Subtype.val := by
    rw [List.map_map]
    exact List.map_congr_left fun n hn => lossy_of_valid (h n hn).valid
  show lossy _ = _
  rw [lossy_intercalate (by decide) fun hnil => hne (List.map_eq_nil_iff.mp hnil), hlossy]

theorem splitOn_relPath {names : List FileName} (hne : names ≠ []) (h : ∀ n ∈ names, Plain n) :
    (relPath names).bytes.splitOn 47 = names.map Subtype.val := by
  rw [relPath_plain hne h, splitOn_names hne]

theorem isName_fileName (name : FileName) : isName name.1 = true :=
  decide_eq_true ⟨name.2.1, name.2.2.2.2.1⟩

/-- They lead where they stood. -/
theorem pathNames_relPath {names : List FileName} (hne : names ≠ []) (h : ∀ n ∈ names, Plain n) :
    pathNames (relPath names).bytes = names.map Subtype.val := by
  rw [pathNames, splitOn_relPath hne h, List.filter_eq_self]
  intro field hfield
  obtain ⟨name, -, rfl⟩ := List.mem_map.mp hfield
  exact isName_fileName name

theorem endsInName_relPath {names : List FileName} (hne : names ≠ []) (h : ∀ n ∈ names, Plain n) :
    endsInName (relPath names).bytes = true := by
  rw [endsInName, splitOn_relPath hne h, List.getLast?_map, List.getLast?_eq_some_getLast hne]
  exact isName_fileName _

/-- A directory that can be packed and comes back as it is: names that are there once each, are
texts and are portable, and sizes and lengths of 64 bits. -/
structure Listing.Packable (tree : Listing) (content : List FileName → Bytes) : Prop where
  distinct : tree.Distinct
  plain : ∀ names ∈ tree.filePaths, ∀ name ∈ names, Plain name
  size : (treeBytes (packedFiles tree content)).length < 2 ^ 64
  count : tree.filePaths.length < 2 ^ 64
  paths : ∀ names ∈ tree.filePaths, (relPath names).bytes.length < 2 ^ 64

/-- What comes back is the directory: its files and no others, and the directories that lead to
them; a single file beside nothing else is written as such. -/
def Output.Restores (tree : Listing) (content : List FileName → Bytes) : Output → Prop
  | .tree _ t =>
    (∀ p bytes, t.node p = some (.file bytes) ↔
      ∃ names ∈ tree.filePaths, names.map Subtype.val = p ∧ content names = bytes) ∧
    ∀ p, t.node p = some .dir ↔
      p = [] ∨ ∃ names ∈ tree.filePaths, p <+: names.map Subtype.val ∧ p ≠ names.map Subtype.val
  | .file _ bytes => ∃ name, tree.filePaths = [[name]] ∧ bytes = content [name]

/-! ## Writing the files of a directory -/

/-- Files whose paths end in names land where they can be written. -/
theorem landAll_of_writeAll {refuses : List Bytes → Bool} {files : List (Text × Bytes)}
    (hends : ∀ f ∈ files, endsInName f.1.bytes = true) {t t' : OutputTree}
    (h : t.writeAll refuses (placesOf files) = (true, t')) :
    landAll refuses t files = (true, t') := by
  induction files generalizing t with
  | nil => exact h
  | cons f files ih =>
    obtain ⟨path, bytes⟩ := f
    obtain ⟨t1, hw, hrest⟩ := FileTree.writeAll_cons_ok h
    have hland : land refuses t path.bytes bytes = (true, t1) := by
      rw [land, if_pos (hends _ List.mem_cons_self)]
      exact hw
    rw [landAll, hland]
    exact ih (fun g hg => hends g (List.mem_cons_of_mem _ hg)) hrest

variable {tree : Listing} {content : List FileName → Bytes}

/-- Where the packed files are written. -/
theorem placesOf_packedFiles (h : tree.Packable content) :
    placesOf (packedFiles tree content) =
      (sortedPaths tree).map fun names => (names.map Subtype.val, content names) := by
  rw [placesOf, packedFiles, List.map_map]
  refine List.map_congr_left fun names hnames => ?_
  have hmem := mem_sortedPaths.mp hnames
  exact Prod.ext (pathNames_relPath (ne_nil_of_mem_filePaths names hmem) (h.plain names hmem)) rfl

/-- The packed files are written to an empty directory, and then it holds them and nothing else. -/
theorem Listing.Packable.written (h : tree.Packable content) {refuses : List Bytes → Bool}
    (hfree : ∀ p, refuses p = false) (path : Bytes) : ∃ t,
    landAll refuses .empty (packedFiles tree content) = (true, t) ∧
      (Output.tree path t).Restores tree content := by
  have hplaces := placesOf_packedFiles h
  have hval (a b : List FileName) : a.map Subtype.val <+: b.map Subtype.val ↔ a <+: b := by
    exact List.prefix_map_iff_of_injective Subtype.val_injective
  have happart : ((sortedPaths tree).map fun names => (names.map Subtype.val, content names)).Pairwise
      fun f g => ¬ f.1 <+: g.1 ∧ ¬ g.1 <+: f.1 := by
    rw [List.pairwise_map]
    refine (((sortBy_perm _ _).pairwise_iff fun hab => And.symm hab).mpr
      h.distinct.pairwise).imp fun hab => ?_
    exact ⟨fun hp => hab.1 ((hval _ _).mp hp), fun hp => hab.2 ((hval _ _).mp hp)⟩
  have hmem (p bytes) : (p, bytes) ∈ placesOf (packedFiles tree content) ↔
      ∃ names ∈ tree.filePaths, names.map Subtype.val = p ∧ content names = bytes := by
    rw [hplaces, List.mem_map]
    refine exists_congr fun names => ?_
    rw [mem_sortedPaths, Prod.mk.injEq]
  have hne : ∀ f ∈ placesOf (packedFiles tree content), f.1 ≠ [] := by
    intro f hf hnil
    obtain ⟨names, hnames, he, -⟩ := (hmem f.1 f.2).mp hf
    exact ne_nil_of_mem_filePaths names hnames (List.map_eq_nil_iff.mp (he.trans hnil))
  have hone : ∀ f ∈ placesOf (packedFiles tree content),
      ∀ g ∈ placesOf (packedFiles tree content), f.1 = g.1 → f.2 = g.2 := by
    intro f hf g hg he
    obtain ⟨names, -, hnames, hf⟩ := (hmem f.1 f.2).mp hf
    obtain ⟨names', -, hnames', hg⟩ := (hmem g.1 g.2).mp hg
    have hsame := List.map_injective_iff.mpr Subtype.val_injective
      (hnames.trans (he.trans hnames'.symm))
    rw [← hf, ← hg, hsame]
  have hroot : (FileTree.empty : OutputTree).node [] = some .dir := rfl
  obtain ⟨t, ht⟩ := FileTree.writeAll_ok hfree hroot hne
    (fun f hf => FileTree.free_empty (hne f hf)) (hplaces ▸ happart)
  have hends : ∀ f ∈ packedFiles tree content, endsInName f.1.bytes = true := by
    intro f hf
    obtain ⟨names, hnames, rfl⟩ := List.mem_map.mp hf
    have hin := mem_sortedPaths.mp hnames
    exact endsInName_relPath (ne_nil_of_mem_filePaths names hin) (h.plain names hin)
  have hstill : t.node [] = some .dir := by
    rcases FileTree.writeAll_node ht [] with hsame | ⟨f, hf, he⟩ | ⟨-, hnone⟩
    · exact hsame
    · exact absurd he (hne f hf)
    · cases hnone
  refine ⟨t, landAll_of_writeAll hends ht, fun p bytes => ?_, fun p => ?_⟩
  · rw [FileTree.writeAll_empty_file_iff ht hone, hmem]
  · rw [FileTree.writeAll_empty_dir_iff ht hone, and_iff_right hstill]
    refine or_congr_right ?_
    constructor
    · rintro ⟨f, hf, hp, hpne⟩
      obtain ⟨names, hnames, he, -⟩ := (hmem f.1 f.2).mp hf
      exact ⟨names, hnames, he ▸ hp, he ▸ hpne⟩
    · rintro ⟨names, hnames, hp, hpne⟩
      exact ⟨_, (hmem _ (content names)).mpr ⟨names, hnames, rfl, rfl⟩, hp, hpne⟩

/-! ## There and back -/

section

variable [Blake3] [FastCDC] {d d' seed client : Disk} {input : Bytes} {nptp : Bytes}
  {nameFlag : Option Text} {noCopy : Bool} {files : List (Text × Bytes)} {name : Option Text}

omit [Blake3] in
theorem length_streamedPieces_le (files : List (Text × Bytes)) :
    (streamedPieces files).length ≤ (treeBytes files).length := by
  induction files with
  | nil => exact Nat.le_refl 0
  | cons f files ih =>
    have hpieces := @length_pieces_le FastCDC.streaming f.2
    have hcons : streamedPieces (f :: files) = FastCDC.stream.pieces f.2 ++ streamedPieces files :=
      rfl
    rw [hcons, treeBytes_cons, List.length_append, List.length_append]
    exact Nat.add_le_add hpieces ih

/-- The manifest that is packed from a reader. -/
abbrev packedManifest (files : List (Text × Bytes)) (name : Option Text) : Manifest :=
  @Manifest.fromFiles _ FastCDC.streaming files name

theorem covers_packedManifest (name : Option Text) (hsize : (treeBytes files).length < 2 ^ 64) :
    @Manifest.Covers _ FastCDC.streaming (packedManifest files name) files :=
  @Manifest.covers_fromFiles _ FastCDC.streaming files name hsize

theorem paths_packedManifest (name : Option Text) (hsize : (treeBytes files).length < 2 ^ 64) :
    (packedManifest files name).files.map FileEntry.path = files.map Prod.fst := by
  obtain ⟨-, -, -, htable⟩ := @covers_packedManifest _ _ files name hsize
  have hpaths := congrArg (List.map Prod.fst) htable
  rwa [List.map_map, List.map_map] at hpaths

/-- What `cmd_pack` leaves of a directory: the manifest file of its files, and a store in which
their chunks are listed. -/
theorem cmdPack_dir (hd : d.Steady) (hfiles : d.HoldsTree input tree content)
    (href : noCopy = true → ∀ names ∈ tree.filePaths, d.Referable (diskPath input names))
    (h : cmdPack d input (.dir tree) nameFlag noCopy = (.ok nptp, d')) :
    nptp = (packedManifest (packedFiles tree content) (nameFlag.or (fileName input))).toNptp ∧
      d'.Steady ∧ tree.filePaths ≠ [] ∧
      ∀ p ∈ streamedPieces (packedFiles tree content), d'.Lists (Hash.of p) := by
  obtain ⟨s, d₁, hopen, ho⟩ := hd.open
  have hholds : d₁.HoldsTree input tree content := by
    intro names hnames
    rw [ho.sources]
    exact hfiles names hnames
  have href₁ : noCopy = true → ∀ f ∈ readDirPaths input tree, d₁.Referable f.2 := by
    intro hnc f hf src hsrc
    rw [readDirPaths_eq] at hf
    obtain ⟨names, hnames, rfl⟩ := List.mem_map.mp hf
    have hrefers := href hnc names (mem_sortedPaths.mp hnames) src (ho.canonicalize ▸ hsrc)
    exact ⟨hrefers.safe, ho.sources ▸ hrefers.same, ho.sources ▸ hrefers.size⟩
  simp only [cmdPack, hopen] at h
  split at h
  · cases h
  · next hnonempty =>
    have hkeeps : Retains (d₁, s) (s.ingestTreeFiles d₁ (readDirPaths input tree)
        (nameFlag.or (fileName input)) noCopy).2 :=
      (ingestTreeFiles_live href₁).retains ho.steady ho.sound ho.noted
    have hhas (m) (hok : (s.ingestTreeFiles d₁ (readDirPaths input tree)
        (nameFlag.or (fileName input)) noCopy).1 = .ok m) :=
      ingestTreeFiles_has ho.steady ho.sound ho.noted href₁ hholds.copies hok
    rcases hr : s.ingestTreeFiles d₁ (readDirPaths input tree) (nameFlag.or (fileName input)) noCopy
      with ⟨e | m, d₂, s₂⟩
    · rw [hr] at h
      cases h
    · rw [hr] at h hkeeps
      cases h
      obtain ⟨files, hcopies, rfl⟩ := Store.ingestTreeFiles_ok (congrArg (·.1) hr)
      obtain rfl := hcopies.unique hholds.copies
      refine ⟨rfl, hkeeps.disk, fun hnil => hnonempty ?_, fun p hp => ?_⟩
      · rw [readDirPaths_eq, sortedPaths, hnil]
        rfl
      · have hin := hhas _ (congrArg (·.1) hr) p hp
        rw [hr] at hin
        exact hkeeps.noted.lists hin

variable {refuses : List Bytes → Bool} {creates : Bool}

/-- What `cmd_get` does where the seed has the chunks and the client has room for them: what is left
is to write out what the client has. -/
theorem cmdGet_of_listed (hsize : (treeBytes files).length < 2 ^ 64)
    (hrep : (packedManifest files name).Representable) (hseed : seed.Steady)
    (hlists : ∀ p ∈ streamedPieces files, seed.Lists (Hash.of p)) (hclient : client.Steady)
    (hlines : client.LinesRead) (hroom : client.HasRoom (treeBytes files).length)
    (outFlag : Option Bytes) (t : OutputTree) : ∃ r seed' client',
    cmdGet refuses creates (packedManifest files name).toNptp seed client outFlag t =
      (r, seed', client') ∧
    ((∃ p ∈ streamedPieces files, ¬ seed'.NoCollision p) ∨ ∃ s,
      r = writeOutput refuses creates client' s (packedManifest files name) outFlag t ∧
      s.Whole client' ∧ ∀ p ∈ streamedPieces files, s.Has client' (Hash.of p)) := by
  obtain ⟨-, hconsistent, hhashes, -⟩ := @covers_packedManifest _ _ files name hsize
  have hhashes : (streamedPieces files).map Hash.of = (packedManifest files name).hashes :=
    hhashes.symm
  have hparse := Manifest.fromNptp_toNptp hrep []
  rw [List.append_nil] at hparse
  obtain ⟨source, seed', hopen, ho⟩ := hseed.open
  obtain ⟨s, client', hopen', ho'⟩ := hclient.open
  have hget (r c) (hdl : download (StoreSource seed') (packedManifest files name) source client' s =
      (r, c)) : cmdGet refuses creates (packedManifest files name).toNptp seed client outFlag t =
        match r with
        | .error e => (.error (.node e), seed', c.disk)
        | .ok _ => (writeOutput refuses creates c.disk c.store (packedManifest files name) outFlag t,
            seed', c.disk) := by
    simp only [cmdGet, hparse, hopen, hopen', hdl]
    cases r <;> rfl
  by_cases hnc : ∀ p ∈ streamedPieces files, seed'.NoCollision p
  · have hlen : ∀ p ∈ streamedPieces files, p.length < 2 ^ 32 := fun p hp =>
      (@length_of_mem_treePieces FastCDC.streaming files p hp).trans_lt (by decide)
    have hserves : ∀ p ∈ streamedPieces files, source.Serves seed' (Hash.of p) := fun p hp =>
      Store.serves_of_has ho.steady.refs ho.noted (ho.has _ (hlists p hp))
    have hroom' : client'.HasRoom (streamedPieces files).flatten.length := by
      intro id
      rw [ho'.contents, streamedPieces, @flatten_treePieces FastCDC.streaming files]
      exact hroom id
    obtain ⟨report, c, hdl⟩ := download_of_deliverer hconsistent hhashes
      (StoreSource.deliverer ho.steady hnc hlen) ⟨ho.sound, hserves⟩ hroom'
    obtain ⟨-, hall, -⟩ := download_ok (ho'.whole hlines)
      (StoreSource.short hhashes hnc hlen) hdl
    refine ⟨_, seed', c.disk, hget _ _ hdl, .inr ⟨c.store, rfl, hall.whole, fun p hp => ?_⟩⟩
    refine hall.held_all _ ?_
    rw [← hhashes]
    exact List.mem_map_of_mem hp
  · obtain ⟨p, hp, hc⟩ := not_forall₂.mp hnc
    rcases hdl : download (StoreSource seed') (packedManifest files name) source client' s with
      ⟨e | report, c⟩
    all_goals exact ⟨_, seed', c.disk, hget _ _ hdl, .inl ⟨p, hp, hc⟩⟩

/-- There is an entry for each file. -/
theorem length_files_packedManifest (h : tree.Packable content) (name : Option Text) :
    (packedManifest (packedFiles tree content) name).files.length = tree.filePaths.length := by
  have hpaths := @paths_packedManifest _ _ (packedFiles tree content) name h.size
  have hlength := congrArg List.length hpaths
  rw [List.length_map, List.length_map] at hlength
  have hfiles : (packedFiles tree content).length = (sortedPaths tree).length := List.length_map _
  rw [hlength, hfiles]
  exact (sortBy_perm _ _).length_eq

/-- A manifest of packed files has a byte form. -/
theorem representable_packedManifest (h : tree.Packable content)
    (hname : ∀ n ∈ name, n.bytes.length < 2 ^ 64) :
    (packedManifest (packedFiles tree content) name).Representable := by
  have hpaths := @paths_packedManifest _ _ (packedFiles tree content) name h.size
  obtain ⟨-, -, hhashes, -⟩ := @covers_packedManifest _ _ (packedFiles tree content) name h.size
  have hchunks : (packedManifest (packedFiles tree content) name).chunks.length =
      (streamedPieces (packedFiles tree content)).length := by
    have hlength := congrArg List.length hhashes
    rwa [Manifest.hashes, List.length_map, List.length_map] at hlength
  refine ⟨?_, length_files_packedManifest h name ▸ h.count, fun entry he => ?_, hname⟩
  · rw [hchunks]
    exact (length_streamedPieces_le _).trans_lt h.size
  · have hpath : entry.path ∈ (packedFiles tree content).map Prod.fst :=
      hpaths ▸ List.mem_map_of_mem he
    obtain ⟨f, hf, hpath⟩ := List.mem_map.mp hpath
    obtain ⟨names, hnames, rfl⟩ := List.mem_map.mp hf
    rw [← hpath]
    exact h.paths names (mem_sortedPaths.mp hnames)

/-- A directory that is not written as one is a single file. -/
theorem filePaths_of_not_looksLikeTree (h : tree.Packable content) (hne : tree.filePaths ≠ [])
    (hlooks : ¬ looksLikeTree (packedManifest (packedFiles tree content) name) = true) :
    ∃ name, tree.filePaths = [[name]] := by
  have hpaths := @paths_packedManifest _ _ (packedFiles tree content) name h.size
  have hlength := length_files_packedManifest h name
  rw [looksLikeTree, Bool.or_eq_true, not_or, decide_eq_true_eq] at hlooks
  obtain ⟨hone, hslash⟩ := hlooks
  obtain ⟨names, hnames⟩ : ∃ names, tree.filePaths = [names] := by
    rw [← List.length_eq_one_iff]
    have hpos := List.length_pos_iff.mpr hne
    omega
  have hmem : names ∈ tree.filePaths := hnames ▸ List.mem_singleton_self _
  have hsorted : sortedPaths tree = [names] := by
    rw [sortedPaths, hnames]
    rfl
  obtain ⟨first, rest, rfl, -⟩ := Listing.head_mem_names names hmem
  cases rest with
  | nil => exact ⟨first, hnames⟩
  | cons second rest =>
    have hfiles : (packedFiles tree content).map Prod.fst = [relPath (first :: second :: rest)] := by
      rw [packedFiles, hsorted]
      rfl
    obtain ⟨entry, more, hentries, hpath, -⟩ := List.map_eq_cons_iff.mp (hpaths.trans hfiles)
    have hspelled := relPath_plain (List.cons_ne_nil first (second :: rest)) (h.plain _ hmem)
    rw [List.map_cons, List.map_cons, intercalate_cons_cons] at hspelled
    refine absurd ?_ hslash
    rw [hentries, List.head?_cons, Option.any_some, hpath, hspelled, List.contains_iff_mem]
    exact List.mem_append_right _ List.mem_cons_self

/-- What is written is the directory. -/
theorem writeOutput_restores (h : tree.Packable content) (hne : tree.filePaths ≠ [])
    (hfree : ∀ p, refuses p = false) {s : Store} (hw : s.Whole client)
    (hhas : ∀ p ∈ streamedPieces (packedFiles tree content), s.Has client (Hash.of p))
    (hnc : ∀ p ∈ streamedPieces (packedFiles tree content), client.NoCollision p)
    (outFlag : Option Bytes) : ∃ o, writeOutput refuses true client s
      (packedManifest (packedFiles tree content) name) outFlag .empty = .ok o ∧
      o.Restores tree content := by
  have hcovers := @covers_packedManifest _ _ (packedFiles tree content) name h.size
  rw [writeOutput]
  split
  · obtain ⟨t, hland, hrestores⟩ := h.written hfree (outputName
      (packedManifest (packedFiles tree content) name) outFlag (ascii "download"))
    have hpathOk : ∀ entry ∈ (packedManifest (packedFiles tree content) name).files,
        entry.PathOk := by
      intro entry he
      have hpaths := @paths_packedManifest _ _ (packedFiles tree content) name h.size
      have hmem : entry.path ∈ (packedFiles tree content).map Prod.fst :=
        hpaths ▸ List.mem_map_of_mem he
      obtain ⟨f, hf, hpath⟩ := List.mem_map.mp hmem
      obtain ⟨names, hnames, rfl⟩ := List.mem_map.mp hf
      rw [FileEntry.PathOk, ← hpath]
      refine (readDirPaths_exported_iff [] tree).mpr
        (fun below hb n hn => (h.plain below hb n hn).portable) (_, diskPath [] names) ?_
      rw [readDirPaths_eq]
      exact List.mem_map_of_mem hnames
    obtain ⟨s', hs'⟩ := @Store.Whole.exportTreeInto_eq _ client s _ FastCDC.streaming _ refuses hw
      hcovers (@Manifest.countsChunks_fromFiles _ FastCDC.streaming _ name h.size) hpathOk hhas hnc
      _ _ hland
    exact ⟨_, by rw [hs'], hrestores⟩
  · next hlooks =>
    obtain ⟨first, hfirst⟩ := filePaths_of_not_looksLikeTree h hne hlooks
    obtain ⟨s', hs'⟩ := @Store.Whole.exportTo_eq _ client s _ FastCDC.streaming _ hw hcovers hhas hnc
    have hbytes : treeBytes (packedFiles tree content) = content [first] := by
      rw [packedFiles, sortedPaths, hfirst]
      exact List.append_nil _
    rw [if_pos rfl, hs']
    exact ⟨_, rfl, first, hfirst, hbytes⟩

/-- A packed directory comes back. Whatever is called on the store after a directory was packed into
it, by any handles in any order, as long as files that are only referenced stay as they are, a
client with any steady store, room for the contents and an empty output directory gets the
directory: every file at its names and with its contents, and nothing else. Or a string was stored
on the way that differs from a chunk and has its digest. -/
theorem packed_directory_comes_back {calls : List Call} {w : World} (hd : d.Steady)
    (hfiles : d.HoldsTree input tree content) (hpackable : tree.Packable content)
    (href : noCopy = true → ∀ names ∈ tree.filePaths, d.Referable (diskPath input names))
    (hname : ∀ n ∈ nameFlag.or (fileName input), n.bytes.length < 2 ^ 64)
    (hpack : cmdPack d input (.dir tree) nameFlag noCopy = (.ok nptp, d'))
    (hlater : Along World.step World.Steady ⟨d', []⟩ calls)
    (hrun : runs World.step ⟨d', []⟩ calls = some w) (hclient : client.Steady)
    (hlines : client.LinesRead)
    (hroom : client.HasRoom (treeBytes (packedFiles tree content)).length)
    (hfree : ∀ p, refuses p = false) (outFlag : Option Bytes) : ∃ r seed' client',
    cmdGet refuses true nptp w.disk client outFlag .empty = (r, seed', client') ∧
      ((∃ o, r = .ok o ∧ o.Restores tree content) ∨
        ∃ p ∈ streamedPieces (packedFiles tree content),
          ¬ seed'.NoCollision p ∨ ¬ client'.NoCollision p) := by
  obtain ⟨rfl, hsteady, hne, hlists⟩ := cmdPack_dir hd hfiles href hpack
  have hlively : World.Lively ⟨d', []⟩ := ⟨hsteady, fun s hs => nomatch hs⟩
  have hkeeps := hlively.runs hlater hrun
  have hserving : World.Serving (fun _ => True)
      ((streamedPieces (packedFiles tree content)).map Hash.of) ⟨d', []⟩ := by
    refine ⟨fun _ _ => trivial, fun g hg => ?_, fun k s _ hs => nomatch hs⟩
    obtain ⟨p, hp, rfl⟩ := List.mem_map.mp hg
    exact hlists p hp
  have hlisted := (hkeeps.serving _ _ hserving).listed
  obtain ⟨r, seed', client', hget, ⟨p, hp, hc⟩ | ⟨s, rfl, hw, hhas⟩⟩ :=
    cmdGet_of_listed hpackable.size (representable_packedManifest hpackable hname)
      hkeeps.lively.disk (fun p hp => hlisted _ (List.mem_map_of_mem hp)) hclient hlines hroom
      outFlag .empty
  · exact ⟨r, seed', client', hget, .inr ⟨p, hp, .inl hc⟩⟩
  · refine ⟨_, seed', client', hget, ?_⟩
    by_cases hnc : ∀ p ∈ streamedPieces (packedFiles tree content), client'.NoCollision p
    · exact .inl (writeOutput_restores hpackable hne hfree hw hhas hnc outFlag)
    · obtain ⟨p, hp, hc⟩ := not_forall₂.mp hnc
      exact .inr ⟨p, hp, .inr hc⟩

end

/-- A directory with one directory in it, and in that one the file `x`. -/
def nestedX : Listing :=
  .dir ⟨ascii "s", by decide⟩ (.file nameX .done) .done

/-- A fresh store beside the directory `/d` of that form, whose file contains `x`. -/
def diskOfNestedX : Disk := .fresh ∅ (Finmap.singleton (ascii "/d/s/x") (.file [120])) some

/-- What is packed of it. -/
def nptpOfNestedX : Bytes :=
  let _ := blake3OfX
  let _ := minFastCDC
  (packedManifest (packedFiles nestedX fun _ => [120]) (some ⟨ascii "d", by decide⟩)).toNptp

theorem packable_nestedX : nestedX.Packable fun _ => [120] where
  distinct := ⟨List.not_mem_nil, ⟨List.not_mem_nil, trivial⟩, trivial⟩
  plain names hnames name hname := by
    obtain rfl := List.mem_singleton.mp hnames
    have hplain : validUtf8 name.1 = true ∧ Portable name.1 := by
      revert name
      decide
    exact ⟨hplain.1, hplain.2⟩
  size := by decide
  count := by decide
  paths := by decide

/-- It is packed, the store is opened once more, and the directory comes back. -/
theorem nested_x_comes_back :
    let _ := blake3OfX
    let _ := minFastCDC
    ∃ d' w seed' client' o, cmdPack diskOfNestedX (ascii "/d") (.dir nestedX) none false =
        (.ok nptpOfNestedX, d') ∧
      runs World.step ⟨d', []⟩ [.open] = some w ∧
      cmdGet (fun _ => false) true nptpOfNestedX w.disk (Disk.fresh ∅ ∅ some) none .empty =
        (.ok o, seed', client') ∧ o.Restores nestedX fun _ => [120] := by
  intro _ _
  have hpack : (cmdPack diskOfNestedX (ascii "/d") (.dir nestedX) none false).1 =
      .ok nptpOfNestedX := by
    decide +kernel
  have hopen : (runs World.step ⟨(cmdPack diskOfNestedX (ascii "/d") (.dir nestedX) none false).2,
      []⟩ [.open]).isSome := by
    decide +kernel
  obtain ⟨w, hrun⟩ := Option.isSome_iff_exists.mp hopen
  have hsteady : diskOfNestedX.Steady := Store.whole_fresh.steady
  have hempty : Store.fresh.Whole (Disk.fresh ∅ ∅ some) := Store.whole_fresh
  have hfiles : diskOfNestedX.HoldsTree (ascii "/d") nestedX fun _ => [120] := by
    intro names hnames
    obtain rfl := List.mem_singleton.mp hnames
    decide
  have href : false = true → ∀ names ∈ nestedX.filePaths,
      diskOfNestedX.Referable (diskPath (ascii "/d") names) := nofun
  have hlater (d : Disk) : Along World.step World.Steady ⟨d, []⟩ [.open] :=
    ⟨trivial, fun _ _ => trivial⟩
  have hroom : (Disk.fresh ∅ ∅ some).HasRoom
      (treeBytes (packedFiles nestedX fun _ => [120])).length := by
    intro id
    rw [Disk.fresh, Finmap.lookup_empty, MAX_FILE]
    decide
  obtain ⟨r, seed', client', hget, hback⟩ := packed_directory_comes_back hsteady hfiles
    packable_nestedX href (by decide) (Prod.ext hpack rfl) (hlater _) hrun hempty.steady
    hempty.lines hroom (fun _ : List Bytes => (rfl : false = false)) none
  have hnc (d : Disk) : ∀ p ∈ streamedPieces (packedFiles nestedX fun _ => [120]),
      d.NoCollision p := by
    have hpieces : streamedPieces (packedFiles nestedX fun _ => [120]) = [[120]] := by decide
    intro p hp other _ hh
    rw [hpieces] at hp
    rw [List.mem_singleton.mp hp] at hh ⊢
    exact eq_of_digestOfX hh
  obtain ⟨o, rfl, ho⟩ : ∃ o, r = .ok o ∧ o.Restores nestedX fun _ => [120] := by
    refine hback.resolve_right ?_
    rintro ⟨p, hp, hc | hc⟩
    · exact hc (hnc _ p hp)
    · exact hc (hnc _ p hp)
  exact ⟨_, w, seed', client', o, Prod.ext hpack rfl, hrun, hget, ho⟩

end Np2ptp
