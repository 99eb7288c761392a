import Np2ptp.Bridge.Torrent
import Np2ptp.Core.PathLaws

/-!
# Reading a torrent file

`np2ptp-bridge/src/bencode.rs`. Lists and dictionaries are decoded with the decoder of the values
one level further down, so the levels that are left count down where the source counts the depth up,
and with a fuel of one more than the bytes there are, which no loop uses up as every value takes a
byte. The paths of the files that `parseTorrentFile` accepts are relative
(`relative_of_parseTorrentFile`).
-/

namespace Np2ptp.Bencode

open Lib

/-! ## Values -/

inductive Value where
  | int (n : Int)
  | bytes (b : Bytes)
  | list (l : List Value)
  | dict (d : List (Bytes × Value))

namespace Value

def asDict : Value → Option (List (Bytes × Value))
  | .dict d => some d
  | _ => none

def asBytes : Value → Option Bytes
  | .bytes b => some b
  | _ => none

def asInt : Value → Option Int
  | .int n => some n
  | _ => none

def asList : Value → Option (List Value)
  | .list l => some l
  | _ => none

/-- The first value under the key. -/
def dictGet (v : Value) (key : Bytes) : Option Value :=
  v.asDict.bind fun d => (d.find? fun e => e.1 = key).map Prod.snd

end Value

/-- `err`. The messages are ASCII. -/
def err (msg : String) : BridgeError := .source (.ofLossy (ascii "bencode: " ++ ascii msg))

/-- `ok_or_else(|| err(msg))`. -/
def okOr {α : Type} (x : Option α) (msg : String) : Except BridgeError α :=
  match x with
  | some a => .ok a
  | none => .error (err msg)

/-- The condition holds, or the error is returned. -/
def ensure (p : Prop) [Decidable p] (msg : String) : Except BridgeError Unit :=
  if p then .ok () else .error (err msg)

/-! ## The decoder -/

def MAX_DEPTH : Nat := 32

/-- What is before the first byte of a kind, and what is after it. -/
def cutAt (b : UInt8) : Bytes → Option (Bytes × Bytes)
  | [] => none
  | c :: t => if c = b then some ([], t) else (cutAt b t).map fun cut => (c :: cut.1, cut.2)

/-- `strip_prefix` of one byte. -/
def stripPrefix (b : UInt8) (input : Bytes) : Option Bytes :=
  if input.head? = some b then some input.tail else none

/-- `str::parse` for `i64`: an optional sign, one or more decimal digits, and a value in range. -/
def parseI64 (s : Bytes) : Option Int :=
  let digits := if s.head? = some 43 ∨ s.head? = some 45 then s.tail else s
  if digits = [] then none
  else (digitsValue digits).bind fun n =>
    if s.head? = some 45 then if n ≤ 2 ^ 63 then some (-n) else none
    else if n < 2 ^ 63 then some n else none

/-- `decode_int`. -/
def decodeInt (input : Bytes) : Except BridgeError (Value × Bytes) := do
  let rest ← okOr (stripPrefix 105 input) "expected 'i'"
  let (s, rest) ← okOr (cutAt 101 rest) "unterminated integer"
  ensure (validUtf8 s) "integer is not utf-8"
  let n ← okOr (parseI64 s) "invalid integer"
  return (.int n, rest)

/-- `decode_byte_string`. -/
def decodeByteString (input : Bytes) : Except BridgeError (Bytes × Bytes) := do
  let (lenS, rest) ← okOr (cutAt 58 input) "missing ':' in byte string"
  ensure (validUtf8 lenS) "byte string length is not utf-8"
  let len ← okOr (parseUnsigned (2 ^ 64) lenS) "invalid byte string length"
  ensure (lenS.length + 1 + len < 2 ^ 64) "byte string length overflow"
  ensure (len ≤ rest.length) "byte string runs past end of input"
  return (rest.take len, rest.drop len)

/-- A decoder of one value. -/
abbrev Decoder := Bytes → Except BridgeError (Value × Bytes)

/-- The loop of `decode_list`. -/
def decodeItems (decode : Decoder) : Nat → Bytes → List Value → Except BridgeError (Value × Bytes)
  | 0, _, _ => .error (err "unterminated list")
  | fuel + 1, rest, items =>
    match rest with
    | [] => .error (err "unterminated list")
    | b :: t =>
      if b = 101 then .ok (.list items, t)
      else do
        let (v, r) ← decode rest
        decodeItems decode fuel r (items ++ [v])

/-- `decode_list`. -/
def decodeList (decode : Decoder) (input : Bytes) : Except BridgeError (Value × Bytes) := do
  let rest ← okOr (stripPrefix 108 input) "expected 'l'"
  decodeItems decode (rest.length + 1) rest []

/-- The loop of `decode_dict`. -/
def decodeEntries (decode : Decoder) :
    Nat → Bytes → List (Bytes × Value) → Except BridgeError (Value × Bytes)
  | 0, _, _ => .error (err "unterminated dict")
  | fuel + 1, rest, entries =>
    match rest with
    | [] => .error (err "unterminated dict")
    | b :: t =>
      if b = 101 then .ok (.dict entries, t)
      else do
        let (key, r) ← decodeByteString rest
        let (v, r₂) ← decode r
        decodeEntries decode fuel r₂ (entries ++ [(key, v)])

/-- `decode_dict`. -/
def decodeDict (decode : Decoder) (input : Bytes) : Except BridgeError (Value × Bytes) := do
  let rest ← okOr (stripPrefix 100 input) "expected 'd'"
  decodeEntries decode (rest.length + 1) rest []

/-- `decode` at a depth from which `levels` levels are left. -/
def decodeLevels : Nat → Decoder
  | 0, _ => .error (err "bencode nesting too deep")
  | levels + 1, input =>
    match input.head? with
    | some 105 => decodeInt input
    | some 108 => decodeList (decodeLevels levels) input
    | some 100 => decodeDict (decodeLevels levels) input
    | some b =>
      if isDigit b then do
        let (b, rest) ← decodeByteString input
        return (.bytes b, rest)
      else .error (err "unexpected byte at start of value")
    | none => .error (err "unexpected byte at start of value")

/-- `decode`. The depths up to `MAX_DEPTH` are allowed. -/
def decode (input : Bytes) (depth : Nat) : Except BridgeError (Value × Bytes) :=
  decodeLevels (MAX_DEPTH + 1 - depth) input

/-! ## Torrent files -/

/-- The loop of `find_info_offset`, `rest` being the end of the input of `size` bytes. -/
def infoOffsetFrom (size : Nat) : Nat → Bytes → Except BridgeError Nat
  | 0, _ => .error (err "unterminated dict")
  | fuel + 1, rest =>
    match rest with
    | [] => .error (err "unterminated dict")
    | b :: _ =>
      if b = 101 then .error (err "top-level dict has no 'info' key")
      else do
        let (key, r) ← decodeByteString rest
        if key = ascii "info" then return size - r.length
        let (_, r₂) ← decode r 0
        infoOffsetFrom size fuel r₂

/-- `find_info_offset`. -/
def findInfoOffset (bytes : Bytes) : Except BridgeError Nat := do
  let rest ← okOr (stripPrefix 100 bytes) "expected top-level dict"
  infoOffsetFrom bytes.length (rest.length + 1) rest

/-- `validate_relative_path` of `bencode.rs`. -/
def validateRelativePath (path : Bytes) : Except BridgeError Unit := do
  ensure (path ≠ []) "file path must not be empty"
  (components path).forM fun
    | .normal _ => .ok ()
    | _ => .error (err "file path must not be absolute or contain '..'")

/-- The path segments of a file, as the torrent has them. -/
def pathSegments : List Value → Except BridgeError (List Bytes)
  | [] => .ok []
  | seg :: segs => do
    let b ← okOr seg.asBytes "files[].path segment is not a byte string"
    let bs ← pathSegments segs
    return b :: bs

/-- One entry of `files`. -/
def parseEntry (entry : Value) : Except BridgeError TorrentFile := do
  let length ← okOr ((entry.dictGet (ascii "length")).bind Value.asInt) "files[].length missing"
  ensure (0 ≤ length) "files[].length out of range"
  let path ← okOr ((entry.dictGet (ascii "path")).bind Value.asList) "files[].path missing"
  let segments ← pathSegments path
  let path := Text.join (segments.map .ofLossy)
  validateRelativePath path.bytes
  return ⟨path, .ofNat length.toNat⟩

/-- The entries of `files`. -/
def parseEntries : List Value → Except BridgeError (List TorrentFile)
  | [] => .ok []
  | entry :: list => do
    let file ← parseEntry entry
    let files ← parseEntries list
    return file :: files

/-- The files of a torrent: those that `files` lists, or the only one. -/
def parseFiles (info : Value) (name : Text) : Except BridgeError (List TorrentFile) :=
  match info.dictGet (ascii "files") with
  | some listValue => do
    let list ← okOr listValue.asList "info.files is not a list"
    parseEntries list
  | none => do
    let length ← okOr ((info.dictGet (ascii "length")).bind Value.asInt)
      "single-file torrent missing info.length"
    ensure (0 ≤ length) "info.length out of range"
    validateRelativePath name.bytes
    return [⟨name, .ofNat length.toNat⟩]

/-- 64 MiB. -/
def MAX_PIECE_LENGTH : Int := 64 * 1024 * 1024

/-- The pieces of 20 bytes each. -/
def pieceHashesOf (pieces : Bytes) (h : pieces.length % 20 = 0) : List Sha1Digest :=
  (blocks 20 pieces).attach.map fun c =>
    ⟨c.1, length_of_mem_blocks (Nat.dvd_of_mod_eq_zero h) c.1 c.2⟩

/-- The `info` value of a torrent file, and the bytes that it was decoded from. -/
def parseInfo (bytes : Bytes) : Except BridgeError (Value × Bytes) := do
  let infoOffset ← findInfoOffset bytes
  let infoSlice := bytes.drop infoOffset
  let (info, infoRest) ← decode infoSlice 0
  return (info, infoSlice.take (infoSlice.length - infoRest.length))

/-- `parse_torrent_file`. -/
def parseTorrentFile [Sha1] (bytes : Bytes) : Except BridgeError TorrentMeta := do
  let (info, infoBytes) ← parseInfo bytes
  let name ← okOr ((info.dictGet (ascii "name")).bind Value.asBytes) "info.name missing"
  let name := Text.ofLossy name
  let pieceLength ← okOr ((info.dictGet (ascii "piece length")).bind Value.asInt)
    "info.piece length missing"
  ensure (0 ≤ pieceLength ∧ pieceLength < 2 ^ 32) "info.piece length out of range"
  ensure (pieceLength ≠ 0 ∧ pieceLength ≤ MAX_PIECE_LENGTH)
    "info.piece length is zero or unreasonably large"
  let pieces ← okOr ((info.dictGet (ascii "pieces")).bind Value.asBytes) "info.pieces missing"
  if h : pieces.length % 20 = 0 then
    let files ← parseFiles info name
    return ⟨(Sha1.digest infoBytes).1, name, files, .ofNat pieceLength.toNat,
      pieceHashesOf pieces h⟩
  else .error (err "info.pieces length is not a multiple of 20")

/-! ## The paths of a torrent -/

theorem bind_eq_ok {ε α β : Type} {x : Except ε α} {f : α → Except ε β} {b : β} :
    (x >>= f) = .ok b ↔ ∃ a, x = .ok a ∧ f a = .ok b := by
  cases x with
  | error e => exact iff_of_false nofun fun ⟨_, h, _⟩ => nomatch h
  | ok a =>
    refine ⟨fun h => ⟨a, rfl, h⟩, ?_⟩
    rintro ⟨_, he, h⟩
    cases he
    exact h

theorem okOr_eq_ok {α : Type} {x : Option α} {msg : String} {a : α} :
    okOr x msg = .ok a ↔ x = some a := by
  cases x with
  | none => exact iff_of_false nofun nofun
  | some b =>
    unfold okOr
    rw [Except.ok.injEq, Option.some.injEq]

theorem ensure_eq_ok {p : Prop} [Decidable p] {msg : String} {u : Unit} :
    ensure p msg = .ok u ↔ p := by
  unfold ensure
  split
  · next h => exact iff_of_true rfl h
  · next h => exact iff_of_false nofun h

/-- What the check of the torrent side accepts. -/
theorem validateRelativePath_eq_ok {path : Bytes} :
    validateRelativePath path = .ok () ↔ Relative path := by
  unfold validateRelativePath Relative
  rw [bind_eq_ok]
  simp only [ensure_eq_ok, exists_and_left, exists_const]
  refine and_congr_right fun _ => ?_
  rw [forM_eq_ok]
  refine forall₂_congr fun c _ => ?_
  cases c with
  | normal name => exact iff_of_true rfl ⟨name, rfl⟩
  | _ => exact iff_of_false nofun nofun

/-- The path segments of an entry of `files`, as the torrent has them. -/
def Value.segments (entry : Value) : List Bytes :=
  (((entry.dictGet (ascii "path")).bind Value.asList).getD []).filterMap Value.asBytes

/-- The path segments of the files of a torrent, as its `info` value has them. -/
def Value.paths (info : Value) : List (List Bytes) :=
  match info.dictGet (ascii "files") with
  | some listValue => (listValue.asList.getD []).map Value.segments
  | none => [((info.dictGet (ascii "name")).bind Value.asBytes).toList]

theorem pathSegments_eq_ok {segs : List Value} {bs : List Bytes} (h : pathSegments segs = .ok bs) :
    segs.filterMap Value.asBytes = bs := by
  induction segs generalizing bs with
  | nil =>
    cases h
    rfl
  | cons seg segs ih =>
    obtain ⟨b, hb, h⟩ := bind_eq_ok.mp h
    obtain ⟨rest, hrest, h⟩ := bind_eq_ok.mp h
    cases h
    rw [List.filterMap_cons, okOr_eq_ok.mp hb, ih hrest]

/-- The lossy text of the segments joined by slashes. -/
def lossyPath (segments : List Bytes) : Bytes := lossy ([47].intercalate segments)

theorem parseEntry_eq_ok {entry : Value} {file : TorrentFile} (h : parseEntry entry = .ok file) :
    Relative file.path.bytes ∧ file.path.bytes = lossyPath entry.segments ∧
      entry.segments ≠ [] := by
  obtain ⟨length, -, h⟩ := bind_eq_ok.mp h
  obtain ⟨_, -, h⟩ := bind_eq_ok.mp h
  obtain ⟨path, hpath, h⟩ := bind_eq_ok.mp h
  obtain ⟨segments, hsegments, h⟩ := bind_eq_ok.mp h
  obtain ⟨_, hvalid, h⟩ := bind_eq_ok.mp h
  cases h
  have hrelative := validateRelativePath_eq_ok.mp hvalid
  have hne : segments ≠ [] := by
    rintro rfl
    exact hrelative.1 rfl
  have heq : entry.segments = segments := by
    unfold Value.segments
    rw [okOr_eq_ok.mp hpath, Option.getD_some, pathSegments_eq_ok hsegments]
  rw [heq]
  exact ⟨hrelative, Text.join_ofLossy hne, hne⟩

/-- The files that were accepted, against the segments in the torrent. -/
structure Named (files : List TorrentFile) (paths : List (List Bytes)) : Prop where
  relative : ∀ f ∈ files, Relative f.path.bytes
  names : files.map (fun f => f.path.bytes) = paths.map lossyPath
  nonempty : ∀ segments ∈ paths, segments ≠ []

theorem named_of_parseEntries {list : List Value} {files : List TorrentFile}
    (h : parseEntries list = .ok files) : Named files (list.map Value.segments) := by
  induction list generalizing files with
  | nil =>
    cases h
    exact ⟨fun f hf => (nomatch hf), rfl, fun s hs => (nomatch hs)⟩
  | cons entry list ih =>
    obtain ⟨file, hfile, h⟩ := bind_eq_ok.mp h
    obtain ⟨rest, hrest, h⟩ := bind_eq_ok.mp h
    cases h
    obtain ⟨hrelative, hpath, hne⟩ := parseEntry_eq_ok hfile
    have htail := ih hrest
    refine ⟨List.forall_mem_cons.mpr ⟨hrelative, htail.relative⟩, ?_,
      List.forall_mem_cons.mpr ⟨hne, htail.nonempty⟩⟩
    rw [List.map_cons, List.map_cons, List.map_cons, hpath, htail.names]

theorem named_of_parseFiles {info : Value} {name : Bytes} {files : List TorrentFile}
    (hname : (info.dictGet (ascii "name")).bind Value.asBytes = some name)
    (h : parseFiles info (.ofLossy name) = .ok files) : Named files info.paths := by
  unfold parseFiles at h
  unfold Value.paths
  split at h
  · next listValue hlist =>
    obtain ⟨list, hl, h⟩ := bind_eq_ok.mp h
    rw [okOr_eq_ok.mp hl]
    exact named_of_parseEntries h
  · next hlist =>
    obtain ⟨length, -, h⟩ := bind_eq_ok.mp h
    obtain ⟨_, -, h⟩ := bind_eq_ok.mp h
    obtain ⟨_, hvalid, h⟩ := bind_eq_ok.mp h
    cases h
    rw [hname]
    refine ⟨List.forall_mem_singleton.mpr (validateRelativePath_eq_ok.mp hvalid), ?_,
      List.forall_mem_singleton.mpr (List.cons_ne_nil _ _)⟩
    have hjoin : [47].intercalate [name] = name := by simp
    exact congrArg (fun p => [lossy p]) hjoin.symm

/-- The files of a torrent that is accepted have relative paths, the lossy texts of its segments. -/
theorem named_of_parseTorrentFile [Sha1] {bytes : Bytes} {torrent : TorrentMeta}
    (h : parseTorrentFile bytes = .ok torrent) :
    ∃ info infoBytes, parseInfo bytes = .ok (info, infoBytes) ∧ Named torrent.files info.paths := by
  obtain ⟨⟨info, infoBytes⟩, hinfo, h⟩ := bind_eq_ok.mp h
  obtain ⟨name, hname, h⟩ := bind_eq_ok.mp h
  obtain ⟨pieceLength, -, h⟩ := bind_eq_ok.mp h
  obtain ⟨_, -, h⟩ := bind_eq_ok.mp h
  obtain ⟨_, -, h⟩ := bind_eq_ok.mp h
  obtain ⟨pieces, -, h⟩ := bind_eq_ok.mp h
  refine ⟨info, infoBytes, hinfo, ?_⟩
  split at h
  · obtain ⟨files, hfiles, h⟩ := bind_eq_ok.mp h
    cases h
    exact named_of_parseFiles (okOr_eq_ok.mp hname) hfiles
  · cases h

/-- The torrents whose files every writer takes are those with portable names between the slashes of
their segments. -/
theorem Named.validateRelativePath_iff {files : List TorrentFile} {paths : List (List Bytes)}
    (h : Named files paths) :
    (∀ f ∈ files, Np2ptp.validateRelativePath f.path.bytes = .ok ()) ↔
      ∀ segments ∈ paths, ∀ segment ∈ segments, ∀ field ∈ segment.splitOn 47,
        field = [] ∨ field = ascii "." ∨ Portable field := by
  have hall (P : Bytes → Prop) : (∀ f ∈ files, P f.path.bytes) ↔ ∀ s ∈ paths, P (lossyPath s) := by
    have hmap : (∀ b ∈ files.map (fun f => f.path.bytes), P b) ↔
        ∀ b ∈ paths.map lossyPath, P b := by rw [h.names]
    simpa only [List.forall_mem_map] using hmap
  have hrelative := (hall Relative).mp h.relative
  rw [hall fun p => Np2ptp.validateRelativePath p = .ok ()]
  refine forall₂_congr fun segments hs => ?_
  rw [lossyPath, validateRelativePath_lossy (hrelative segments hs),
    splitOn_intercalate_flatMap 47 (h.nonempty segments hs)]
  simp only [List.mem_flatMap, forall_exists_index, and_imp]
  exact ⟨fun hf s hs f hfs => hf f s hs hfs, fun hf f s hs hfs => hf s hs f hfs⟩

/-! ## A torrent -/

/-- A torrent of one file of one byte, without pieces. -/
def torrentNamed (name : String) : Bytes :=
  ascii "d4:infod6:lengthi1e4:name" ++ decimal name.length ++ ascii ":" ++ ascii name ++
    ascii "12:piece lengthi1e6:pieces0:ee"

end Np2ptp.Bencode
