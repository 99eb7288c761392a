import Np2ptp.Bridge.Bencode
import Np2ptp.Store.Export

/-!
# Where files are written

`write_tree` and `sanitize_output_name` of `np2ptp-node/src/lib.rs`, the writers that take paths and
names from peers, next to the store's `export_tree_to_dir` and the torrent side, which joins the
paths of a torrent to the directory of its data. None of them leaves its directory
(`paths_stay_below`).
-/

namespace Np2ptp

open Lib

/-! ## Names -/

/-- The characters that `char::is_whitespace` accepts. -/
def whitespace : List Bytes :=
  [[9], [10], [11], [12], [13], [32], [0xC2, 0x85], [0xC2, 0xA0], [0xE1, 0x9A, 0x80]] ++
    (List.range 11).map (fun i => [0xE2, 0x80, 0x80 + .ofNat i]) ++
    [[0xE2, 0x80, 0xA8], [0xE2, 0x80, 0xA9], [0xE2, 0x80, 0xAF], [0xE2, 0x81, 0x9F],
      [0xE3, 0x80, 0x80]]

/-- At most `n` of the characters are taken off the front. -/
def trimFront (chars : List Bytes) : Nat → Bytes → Bytes
  | 0, s => s
  | n + 1, s =>
    match chars.find? fun c => c.isPrefixOf s with
    | none => s
    | some c => trimFront chars n (s.drop c.length)

/-- `str::trim`. A text has no more characters than bytes, and a character that ends a text is
spelled by the bytes at the end. -/
def trim (s : Bytes) : Bytes :=
  let s := trimFront whitespace s.length s
  (trimFront (whitespace.map List.reverse) s.length s.reverse).reverse

/-- `sanitize_output_name`. -/
def sanitizeOutputName (name : Text) : Option Bytes :=
  let trimmed := trim name.bytes
  if trimmed = [] then none
  else
    (trimmed.splitOnP fun b => b == 47 || b == 92).getLast?.bind fun last =>
      (validateRelativePath last).toOption.map fun _ => last

/-- A name that is returned is one component. -/
theorem components_of_sanitizeOutputName {name : Text} {last : Bytes}
    (h : sanitizeOutputName name = some last) : components last = [.normal last] := by
  unfold sanitizeOutputName at h
  dsimp only at h
  split at h
  · cases h
  · obtain ⟨field, hfield, h⟩ := Option.bind_eq_some_iff.mp h
    obtain ⟨u, hu, rfl⟩ := Option.map_eq_some_iff.mp h
    have hvalid : validateRelativePath field = .ok () := toOption_eq_some.mp hu
    have hslash : 47 ∉ field := by
      intro hm
      cases not_of_mem_splitOnP _ field (List.mem_of_getLast? hfield) 47 hm
    obtain ⟨hrelative, -⟩ := validateRelativePath_eq_ok.mp hvalid
    obtain ⟨names, hne, hcomponents, hfields⟩ := hrelative.components_eq
    rw [List.splitOn_eq_singleton hslash, List.flatMap_singleton, ← hcomponents] at hfields
    have hsome : fieldComponents field ≠ [] := by
      rw [hfields, hcomponents]
      exact fun hnil => hne (List.map_eq_nil_iff.mp hnil)
    rw [← hfields]
    unfold fieldComponents at hsome hfields ⊢
    split at hsome
    · exact absurd rfl hsome
    · next hname =>
      rw [if_neg hname] at hfields ⊢
      split at hfields
      · obtain ⟨_, he⟩ := hrelative.2 .parentDir (hfields ▸ List.mem_cons_self)
        cases he
      · next hup => rw [if_neg hup]

/-! ## Trees -/

/-- `write_tree`: the path that is refused, if any, and what has been written where by then. -/
def writeTree (out : Bytes) : List (Text × Bytes) → Option Text × List (Bytes × Bytes)
  | [] => (none, [])
  | (rel, bytes) :: files =>
    match validateRelativePath rel.bytes with
    | .error _ => (some rel, [])
    | .ok () =>
      let (refused, written) := writeTree out files
      (refused, (destination out rel.bytes, bytes) :: written)

/-- A path that passes the check leads below the directory it is pushed onto. -/
theorem destination_below {path : Bytes} (h : validateRelativePath path = .ok ()) (out : Bytes) :
    StrictlyBelow out (destination out path) :=
  (validateRelativePath_eq_ok.mp h).1.destination_below out

/-- Everything that `write_tree` writes is below its directory. -/
theorem writeTree_below (out : Bytes) (files : List (Text × Bytes)) :
    ∀ f ∈ (writeTree out files).2, StrictlyBelow out f.1 := by
  induction files with
  | nil => exact fun f hf => nomatch hf
  | cons file files ih =>
    obtain ⟨rel, bytes⟩ := file
    intro f hf
    unfold writeTree at hf
    split at hf
    · cases hf
    · next hvalid =>
      rcases List.mem_cons.mp hf with rfl | hf
      · exact destination_below hvalid out
      · exact ih f hf

section

variable [Blake3]

theorem Store.exportFiles_below (d : Disk) (m : Manifest) (out : Bytes) (files : List FileEntry) :
    ∀ (written : List (Text × Bytes)) (s : Store),
      (∀ f ∈ written, StrictlyBelow out (destination out f.1.bytes)) →
      ∀ f ∈ (Store.exportFiles d m files written s).2.1,
        StrictlyBelow out (destination out f.1.bytes) := by
  induction files with
  | nil => exact fun written s h => h
  | cons entry files ih =>
    intro written s h
    unfold Store.exportFiles
    split
    · exact h
    · next hvalid =>
      have hnext (bytes : Bytes) : ∀ f ∈ written ++ [(entry.path, bytes)],
          StrictlyBelow out (destination out f.1.bytes) := by
        intro f hf
        rcases List.mem_append.mp hf with hf | hf
        · exact h f hf
        · rw [List.mem_singleton.mp hf]
          exact destination_below hvalid out
      split
      · exact hnext []
      · split
        · next w s' _ => exact ih _ s' (hnext w)
        · next w _ _ _ => exact hnext w

/-- Everything that `export_tree_to_dir` writes is below its directory. -/
theorem Store.exportTreeToDir_below (d : Disk) (s : Store) (m : Manifest) (out : Bytes) :
    ∀ f ∈ (Store.exportTreeToDir d s m).2.1, StrictlyBelow out (destination out f.1.bytes) := by
  unfold Store.exportTreeToDir
  split
  · exact Store.exportFiles_below d m out m.files [] s fun f hf => nomatch hf
  · exact fun f hf => nomatch hf

end

/-! ## Nothing leaves its directory -/

/-- A path of a torrent, joined to the directory of the data, leads below it. -/
theorem torrent_below [Sha1] {bytes : Bytes} {torrent : TorrentMeta}
    (h : Bencode.parseTorrentFile bytes = .ok torrent) (dataDir : Bytes) :
    ∀ f ∈ torrent.files, StrictlyBelow dataDir (push dataDir f.path.bytes) := by
  obtain ⟨info, infoBytes, -, hnamed⟩ := Bencode.named_of_parseTorrentFile h
  exact fun f hf => (hnamed.relative f hf).push_below dataDir

/-- Paths and names from peers stay below. A path that the check accepts leads strictly below the
directory that its fields are pushed onto, the paths of a torrent that is accepted lead strictly
below the directory that they are joined to, and a name that is returned is a single component
directly below the current directory. -/
theorem paths_stay_below [Sha1] :
    (∀ path, validateRelativePath path = .ok () →
      ∀ out, StrictlyBelow out (destination out path)) ∧
    (∀ bytes torrent, Bencode.parseTorrentFile bytes = .ok torrent →
      ∀ f ∈ torrent.files, ∀ dataDir, StrictlyBelow dataDir (push dataDir f.path.bytes)) ∧
    ∀ name last, sanitizeOutputName name = some last →
      components last = [.normal last] ∧ normalize (components last) = [.normal last] := by
  refine ⟨fun path h out => destination_below h out, fun bytes torrent h f hf dataDir => ?_, ?_⟩
  · exact torrent_below h dataDir f hf
  · intro name last h
    have hcomponents := components_of_sanitizeOutputName h
    refine ⟨hcomponents, ?_⟩
    rw [hcomponents]
    rfl

/-- A path with an empty field and a dot, a torrent of the file `a`, and a name with a way up. -/
theorem paths_stay_below_x :
    let _ := sha1OfX
    StrictlyBelow (ascii "..") (destination (ascii "..") (ascii "a//./b")) ∧
    (∃ torrent, Bencode.parseTorrentFile (Bencode.torrentNamed "a") = .ok torrent ∧
      ∀ f ∈ torrent.files, StrictlyBelow (ascii "/d") (push (ascii "/d") f.path.bytes)) ∧
    components (ascii "x") = [.normal (ascii "x")] ∧
      normalize (components (ascii "x")) = [.normal (ascii "x")] := by
  intro _
  obtain ⟨hpush, hjoin, hname⟩ := paths_stay_below
  have hparsed : (Bencode.parseTorrentFile (Bencode.torrentNamed "a")).toOption.isSome := by
    decide +kernel
  obtain ⟨torrent, hsome⟩ := Option.isSome_iff_exists.mp hparsed
  have htorrent := toOption_eq_some.mp hsome
  refine ⟨hpush _ (by decide +kernel) _, ⟨torrent, htorrent, fun f hf => ?_⟩, ?_⟩
  · exact hjoin _ torrent htorrent f hf _
  · exact hname ⟨ascii " ../x ", by decide⟩ (ascii "x") (by decide +kernel)

end Np2ptp
