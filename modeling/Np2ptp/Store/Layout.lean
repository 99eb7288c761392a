import Np2ptp.Core.Manifest
import Np2ptp.Lib.LineLog

/-!
# The store directory

`np2ptp-store/src/lib.rs`, the files of a store and the handle on them. Chunks lie in pack files;
`packs/index` says where, one line a chunk, and `refs.tsv` lists the chunks that were never copied
in but lie in a source file. Both sidecars are append-only texts that a handle loads when it opens
and tails from a cursor afterwards (`refreshTail`). A sidecar that does not exist is read as an
empty one by every function of the store, so the model does not tell the two apart.
-/

namespace Np2ptp

open Lib

/-- `PACK_ROTATE_SIZE`. -/
def PACK_ROTATE_SIZE : Nat := 256 * 1024 * 1024

/-- The largest size and offset the file system allows (`i64::MAX`). -/
def MAX_FILE : Nat := 2 ^ 63 - 1

/-- `PackLoc`: a byte range of a pack file. -/
structure PackLoc where
  packId : UInt32
  offset : UInt64
  length : UInt32
  deriving DecidableEq

/-- `RefLoc`: a byte range of a source file. -/
structure RefLoc where
  path : Bytes
  offset : UInt64
  length : UInt32
  deriving DecidableEq

/-- `StoreError`. -/
inductive StoreError where
  | io
  | manifest (e : ManifestError)
  | missing (h : Hash)
  | corrupt (h : Hash)
  | unsafePath (path : Text)
  deriving DecidableEq

/-- What opening a path that exists finds: a file, or something that cannot be read. -/
inductive Source where
  | file (content : Bytes)
  | unreadable
  deriving DecidableEq

/-- The files of a store directory, and the source files outside it: what opening a path finds,
and the absolute path `fs::canonicalize` makes of one. -/
structure Disk where
  index : Bytes
  refsTsv : Bytes
  packs : HashMap UInt32 Bytes
  /-- The old layout, one file a chunk. -/
  objects : HashMap Hash Bytes
  sources : HashMap Bytes Source
  canonicalize : Bytes → Option Bytes

/-- `PackState`: the pack file being appended to. -/
structure PackState where
  currentId : UInt32
  currentSize : Nat
  deriving DecidableEq

/-- `Store`: one open handle. -/
structure Store where
  refs : HashMap Hash RefLoc
  packIndex : HashMap Hash PackLoc
  packIndexPos : Nat
  refsPos : Nat
  packState : PackState

/-! ## Sidecar lines -/

/-- The text that `append_pack_index_line` writes, without its line feed. -/
def packIndexText (h : Hash) (loc : PackLoc) : Bytes :=
  h.toHex ++ TAB :: (decimal loc.packId.toNat ++ TAB :: (decimal loc.offset.toNat ++
    TAB :: decimal loc.length.toNat))

/-- The line that `append_pack_index_line` writes. -/
def packIndexLine (h : Hash) (loc : PackLoc) : Bytes := packIndexText h loc ++ [LF]

/-- The text that `add_reference` writes, without its line feed. -/
def refText (h : Hash) (path : Bytes) (offset : UInt64) (length : UInt32) : Bytes :=
  h.toHex ++ TAB :: (decimal offset.toNat ++ TAB :: (decimal length.toNat ++
    TAB :: lossy path))

/-- The line that `add_reference` writes. -/
def refLine (h : Hash) (path : Bytes) (offset : UInt64) (length : UInt32) : Bytes :=
  refText h path offset length ++ [LF]

/-- `parse_pack_index_line`. -/
def parsePackIndexLine (line : Bytes) : Option (Hash × PackLoc) :=
  match splitN TAB 4 line with
  | [hash, packId, offset, length] =>
    match Hash.fromHex hash, parseUnsigned (2 ^ 32) packId, parseUnsigned (2 ^ 64) offset,
      parseUnsigned (2 ^ 32) length with
    | some hash, some packId, some offset, some length =>
      some (hash, ⟨UInt32.ofNat packId, UInt64.ofNat offset, UInt32.ofNat length⟩)
    | _, _, _, _ => none
  | _ => none

/-- `parse_ref_line`. -/
def parseRefLine (line : Bytes) : Option (Hash × RefLoc) :=
  match splitN TAB 4 line with
  | [hash, offset, length, path] =>
    match Hash.fromHex hash, parseUnsigned (2 ^ 64) offset, parseUnsigned (2 ^ 32) length with
    | some hash, some offset, some length =>
      some (hash, ⟨path, UInt64.ofNat offset, UInt32.ofNat length⟩)
    | _, _, _ => none
  | _ => none

/-- The entry of a line of `packs/index` that still has its line end. -/
def packEntry (piece : Bytes) : Option (Hash × PackLoc) := parsePackIndexLine (stripLineEnd piece)

/-- The entry of a line of `refs.tsv` that still has its line end. -/
def refEntry (piece : Bytes) : Option (Hash × RefLoc) := parseRefLine (stripLineEnd piece)

/-- The entries of the lines of `packs/index`. -/
abbrev packEntries (s : Bytes) : List (Hash × PackLoc) := entries LF packEntry s

/-- The entries of the lines of `refs.tsv`. -/
abbrev refEntries (s : Bytes) : List (Hash × RefLoc) := entries LF refEntry s

/-! ## Reading -/

/-- Seek and `read_exact`: `none` where either fails. -/
def readAt (content : Bytes) (offset : UInt64) (length : UInt32) : Option Bytes :=
  if MAX_FILE < offset.toNat then none
  else if length = 0 ∨ offset.toNat + length.toNat ≤ content.length then
    some ((content.drop offset.toNat).take length.toNat)
  else none

/-- `refresh_pack_index` and `refresh_refs`: parse the complete lines of what was appended since,
and move the cursor past them. `none` where the read fails, which leaves map and cursor alone. -/
def refreshTail {ν : Type} (parse : Bytes → Option (Hash × ν)) (log : Bytes)
    (m : HashMap Hash ν) (pos : Nat) : Option (HashMap Hash ν × Nat) :=
  if log.length ≤ pos then some (m, pos)
  else
    let tail := log.drop pos
    if validUtf8 tail then
      let whole := complete LF tail
      some (insertAll m (entries LF parse whole), pos + whole.length)
    else none

/-- `load_pack_index` and `load_refs`: the entries and the length of the whole text. `none` where
it is not text. -/
def loadLog {ν : Type} (parse : Bytes → Option (Hash × ν)) (log : Bytes) :
    Option (HashMap Hash ν × Nat) :=
  if validUtf8 log then some (insertAll ∅ (entries LF parse log), log.length) else none

/-- `truncate_partial_line_locked`: the text without its torn tail. `none` where it is not text. -/
def truncatePartialLine (log : Bytes) : Option Bytes :=
  if validUtf8 log then some (complete LF log) else none

theorem packEntries_append {s t : Bytes} (h : Terminated LF s) :
    packEntries (s ++ t) = packEntries s ++ packEntries t := entries_append h

theorem refEntries_append {s t : Bytes} (h : Terminated LF s) :
    refEntries (s ++ t) = refEntries s ++ refEntries t := entries_append h

/-- A text cut after a line is two texts. -/
theorem validUtf8_of_closed_append {s t : Bytes} (hs : Terminated LF s)
    (h : validUtf8 (s ++ t) = true) : validUtf8 s = true ∧ validUtf8 t = true := by
  by_cases hne : s = []
  · subst hne
    exact ⟨rfl, h⟩
  · obtain ⟨u, rfl⟩ := hs.eq_concat hne
    rw [List.append_assoc] at h
    obtain ⟨hu, ht⟩ := validUtf8_of_append_line (by decide : LF < 128) h
    exact ⟨validUtf8_append hu rfl, ht⟩

/-! ## What is written is read back -/

theorem TAB_notMem_toHex (h : Hash) : TAB ∉ h.toHex := fun hm =>
  absurd (hexEncode_range _ _ hm).1 (by decide)

theorem TAB_notMem_decimal (n : Nat) : TAB ∉ decimal n := fun hm =>
  absurd (isDigit_of_mem_decimal n _ hm) (by decide)

/-- Four fields, of which the first three have no tab, are split at their tabs. -/
theorem splitN_four {a b c d : Bytes} (ha : TAB ∉ a) (hb : TAB ∉ b) (hc : TAB ∉ c) :
    splitN TAB 4 (a ++ TAB :: (b ++ TAB :: (c ++ TAB :: d))) = [a, b, c, d] := by
  rw [splitN_cons ha, splitN_cons hb, splitN_cons hc]
  rfl

theorem parsePackIndexLine_packIndexText (h : Hash) (loc : PackLoc) :
    parsePackIndexLine (packIndexText h loc) = some (h, loc) := by
  rw [parsePackIndexLine, packIndexText, splitN_four (TAB_notMem_toHex h)
    (TAB_notMem_decimal _) (TAB_notMem_decimal _)]
  simp [Hash.fromHex_toHex, parseUnsigned_decimal loc.packId.toNat_lt,
    parseUnsigned_decimal loc.offset.toNat_lt, parseUnsigned_decimal loc.length.toNat_lt]

/-- A line of `packs/index` is ASCII without control characters other than its tabs. -/
theorem packIndexText_range (h : Hash) (loc : PackLoc) :
    ∀ b ∈ packIndexText h loc, b = TAB ∨ (48 ≤ b ∧ b < 128) := by
  have hdec : ∀ n, ∀ b ∈ decimal n, b = TAB ∨ (48 ≤ b ∧ b < 128) := by
    intro n b hb
    have hd := isDigit_of_mem_decimal n b hb
    simp only [isDigit, Bool.and_eq_true, decide_eq_true_eq] at hd
    exact .inr ⟨hd.1, UInt8.lt_of_le_of_lt hd.2 (by decide)⟩
  intro b hb
  simp only [packIndexText, List.mem_append, List.mem_cons] at hb
  rcases hb with hb | rfl | hb | rfl | hb | rfl | hb
  · exact .inr (hexEncode_range _ b hb)
  · exact .inl rfl
  · exact hdec _ b hb
  · exact .inl rfl
  · exact hdec _ b hb
  · exact .inl rfl
  · exact hdec _ b hb

theorem LF_notMem_packIndexText (h : Hash) (loc : PackLoc) : LF ∉ packIndexText h loc := by
  intro hm
  rcases packIndexText_range h loc LF hm with e | ⟨e, -⟩
  · exact absurd e (by decide)
  · exact absurd e (by decide)

theorem packIndexLine_ascii (h : Hash) (loc : PackLoc) : ∀ b ∈ packIndexLine h loc, b < 128 := by
  intro b hb
  rcases List.mem_append.mp hb with hb | hb
  · rcases packIndexText_range h loc b hb with rfl | ⟨-, hlt⟩
    · decide
    · exact hlt
  · rw [List.mem_singleton.mp hb]
    decide

theorem validUtf8_packIndexLine (h : Hash) (loc : PackLoc) :
    validUtf8 (packIndexLine h loc) = true := validUtf8_of_ascii (packIndexLine_ascii h loc)

theorem packIndexLine_terminated (h : Hash) (loc : PackLoc) :
    Terminated LF (packIndexLine h loc) := terminated_concat.mpr rfl

theorem packIndexText_getLast (h : Hash) (loc : PackLoc) :
    (packIndexText h loc).getLast? ≠ some CR := by
  intro he
  rcases packIndexText_range h loc CR (List.mem_of_getLast? he) with e | ⟨e, -⟩
  · exact absurd e (by decide)
  · exact absurd e (by decide)

theorem refLine_terminated (h : Hash) (path : Bytes) (offset : UInt64) (length : UInt32) :
    Terminated LF (refLine h path offset length) := terminated_concat.mpr rfl

/-- A line of `refs.tsv` is text, whatever the path. -/
theorem validUtf8_refLine (h : Hash) (path : Bytes) (offset : UInt64) (length : UInt32) :
    validUtf8 (refLine h path offset length) = true := by
  have hhex : validUtf8 h.toHex = true :=
    validUtf8_of_ascii fun b hb => (hexEncode_range _ b hb).2
  have hdec : ∀ n, validUtf8 (decimal n) = true := fun n =>
    validUtf8_of_ascii fun b hb => by
      have hd := isDigit_of_mem_decimal n b hb
      simp only [isDigit, Bool.and_eq_true, decide_eq_true_eq] at hd
      exact UInt8.lt_of_le_of_lt hd.2 (by decide)
  have htab : ∀ t, validUtf8 t = true → validUtf8 (TAB :: t) = true := fun t ht =>
    validUtf8_append (s := [TAB]) rfl ht
  exact validUtf8_append (validUtf8_append hhex (htab _ (validUtf8_append (hdec _)
    (htab _ (validUtf8_append (hdec _) (htab _ (validUtf8_lossy path))))))) rfl

/-- A line of `packs/index` is read as the entry it was written for. -/
theorem packEntry_packIndexLine (h : Hash) (loc : PackLoc) :
    packEntry (packIndexLine h loc) = some (h, loc) := by
  rw [packEntry, packIndexLine, stripLineEnd_line (packIndexText_getLast h loc),
    parsePackIndexLine_packIndexText]

/-- The only entry of a line of `packs/index`. -/
theorem packEntries_packIndexLine (h : Hash) (loc : PackLoc) :
    packEntries (packIndexLine h loc) = [(h, loc)] := by
  have hp := packEntry_packIndexLine h loc
  rw [packIndexLine] at hp ⊢
  rw [packEntries, entries_line (LF_notMem_packIndexText h loc), hp]
  rfl

/-! ## One line of `refs.tsv` -/

/-- The fields of a line before the path. -/
def refFields (h : Hash) (offset : UInt64) (length : UInt32) : Bytes :=
  h.toHex ++ TAB :: (decimal offset.toNat ++ TAB :: (decimal length.toNat ++ [TAB]))

theorem refText_eq (h : Hash) (path : Bytes) (offset : UInt64) (length : UInt32) :
    refText h path offset length = refFields h offset length ++ lossy path := by
  simp [refText, refFields]

theorem LF_notMem_refFields (h : Hash) (offset : UInt64) (length : UInt32) :
    LF ∉ refFields h offset length := by
  have hdec : ∀ n, LF ∉ decimal n := fun n hm =>
    absurd (isDigit_of_mem_decimal n LF hm) (by decide)
  have hhex : LF ∉ h.toHex := fun hm => absurd (hexEncode_range _ _ hm).1 (by decide)
  simp only [refFields, List.mem_append, List.mem_cons, List.not_mem_nil, not_or]
  exact ⟨hhex, by decide, hdec _, by decide, hdec _, by decide, not_false⟩

/-- Whatever stands after the fields is the path. -/
theorem parseRefLine_refFields (h : Hash) (offset : UInt64) (length : UInt32) (path : Bytes) :
    parseRefLine (refFields h offset length ++ path) = some (h, ⟨path, offset, length⟩) := by
  have hline : refFields h offset length ++ path = h.toHex ++ TAB :: (decimal offset.toNat ++
      TAB :: (decimal length.toNat ++ TAB :: path)) := by
    simp [refFields]
  rw [hline, parseRefLine, splitN_four (TAB_notMem_toHex h) (TAB_notMem_decimal _)
    (TAB_notMem_decimal _)]
  simp [Hash.fromHex_toHex, parseUnsigned_decimal offset.toNat_lt,
    parseUnsigned_decimal length.toNat_lt]

/-- The line of a path without a line feed has one entry; a carriage return at its end is lost. -/
theorem refEntries_line {path : Bytes} (h : Hash) (offset : UInt64) (length : UInt32)
    (hLF : LF ∉ path) : refEntries (refFields h offset length ++ path ++ [LF]) =
      [(h, ⟨if path.getLast? = some CR then path.dropLast else path, offset, length⟩)] := by
  have hone : LF ∉ refFields h offset length ++ path := fun hm =>
    (List.mem_append.mp hm).elim (LF_notMem_refFields h offset length) hLF
  have hstrip : stripLineEnd (refFields h offset length ++ path ++ [LF]) =
      refFields h offset length ++
        if path.getLast? = some CR then path.dropLast else path := by
    by_cases hnil : path = []
    · subst hnil
      rw [List.append_nil, if_neg (by decide), List.append_nil]
      refine stripLineEnd_line ?_
      rw [refFields, ← List.cons_append, ← List.append_assoc, ← List.cons_append,
        ← List.append_assoc, List.getLast?_concat]
      decide
    · have hlast : (refFields h offset length ++ path).getLast? = path.getLast? := by
        rw [List.getLast?_append_of_ne_nil _ hnil]
      rw [stripLineEnd, List.getLast?_concat, if_pos rfl, List.dropLast_concat, hlast]
      split
      · rw [List.dropLast_append_of_ne_nil hnil]
      · rfl
  rw [refEntries, entries_line hone, refEntry, hstrip, parseRefLine_refFields]
  rfl

/-- What a path that is text is read back as. -/
theorem refEntries_of_valid {path : Bytes} (h : Hash) (offset : UInt64) (length : UInt32)
    (hvalid : validUtf8 path = true) (hLF : LF ∉ path) : refEntries (refLine h path offset length) =
      [(h, ⟨if path.getLast? = some CR then path.dropLast else path, offset, length⟩)] := by
  rw [refLine, refText_eq, lossy_of_valid hvalid, refEntries_line h offset length hLF]

end Np2ptp
