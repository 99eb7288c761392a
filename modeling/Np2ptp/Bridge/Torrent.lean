import Np2ptp.Lib.Blocks
import Np2ptp.Net.Protocol
import Np2ptp.Store.Packing

/-!
# Torrents and their pieces

`np2ptp-bridge/src/lib.rs` and `streaming.rs`, the metadata of a torrent and the two checks of
content against its piece hashes: `verify_pieces` on files in memory, and `verify_pieces_streaming`
on files read window by window through a buffer that never holds a whole piece for long. Both look
at the files as one stream (`Pinned`), and both accept the same streams (`verifyPieces_iff`,
`verifyPiecesStreaming_iff`).
-/

namespace Np2ptp

open Lib

/-- `[u8; 20]`, a SHA-1 digest. -/
abbrev Sha1Digest := { bytes : Bytes // bytes.length = 20 }

/-- The `sha1` crate. -/
class Sha1 where
  digest : Bytes → Sha1Digest

/-- The digest function that a table of strings and their digests gives, for the runs on fixed
inputs: it is SHA-1 where the table holds SHA-1 digests. -/
abbrev Sha1.ofTable (table : List (Bytes × Sha1Digest)) : Sha1 where
  digest s := (table.lookup s).getD ⟨List.replicate 20 0, rfl⟩

/-- `BridgeError`. Of a source error the file's name is kept, not what the system says. -/
inductive BridgeError where
  | net (e : NetError)
  | store (e : StoreError)
  | pieceVerificationFailed
  | source (name : Text)
  deriving DecidableEq

/-- `TorrentFile`. -/
structure TorrentFile where
  path : Text
  length : UInt64
  deriving DecidableEq

/-- `TorrentMeta`. -/
structure TorrentMeta where
  infohash : Bytes
  name : Text
  files : List TorrentFile
  pieceLength : UInt32
  pieceHashes : List Sha1Digest
  deriving DecidableEq

/-- `TorrentDownload`. -/
structure TorrentDownload where
  info : TorrentMeta
  files : List (Text × Bytes)

section

variable [Sha1]

/-- The stream, cut into pieces, has the piece hashes. -/
def Pinned (pieceLength : Nat) (pieceHashes : List Sha1Digest) (stream : Bytes) : Prop :=
  0 < pieceLength ∧ (blocks pieceLength stream).map Sha1.digest = pieceHashes

instance (pieceLength : Nat) (pieceHashes : List Sha1Digest) (stream : Bytes) :
    Decidable (Pinned pieceLength pieceHashes stream) :=
  inferInstanceAs (Decidable (_ ∧ _))

/-- Two streams with the same piece hashes are the same, or have colliding pieces. -/
theorem Pinned.eq_or_collision {pieceLength : Nat} {pieceHashes : List Sha1Digest} {a b : Bytes}
    (ha : Pinned pieceLength pieceHashes a) (hb : Pinned pieceLength pieceHashes b) :
    a = b ∨ Collision Sha1.digest (blocks pieceLength a) (blocks pieceLength b) :=
  (eq_or_collision_of_map_eq (ha.2.trans hb.2.symm)).imp_left (eq_of_blocks_eq ha.1)

/-! ## In memory -/

/-- `verify_pieces`. -/
def verifyPieces (files : List (Text × Bytes)) (pieceLength : Nat)
    (pieceHashes : List Sha1Digest) : Bool :=
  if pieceLength = 0 then false
  else
    let data := treeBytes files
    let expectedPieces := (data.length + pieceLength - 1) / pieceLength
    if expectedPieces ≠ pieceHashes.length then false
    else ((blocks pieceLength data).zip pieceHashes).all fun (chunk, expected) =>
      Sha1.digest chunk == expected

omit [Sha1] in
/-- Comparing two lists of one length pair by pair. -/
theorem all_zip_eq {α β : Type} [BEq β] [LawfulBEq β] {f : α → β} : ∀ {xs : List α} {ys : List β},
    xs.length = ys.length → (((xs.zip ys).all fun p => f p.1 == p.2) = true ↔ xs.map f = ys)
  | [], [], _ => by simp
  | [], _ :: _, h => by cases h
  | _ :: _, [], h => by cases h
  | x :: xs, y :: ys, h => by
    have ih := all_zip_eq (f := f) (Nat.succ.inj h)
    rw [List.zip_cons_cons, List.all_cons, Bool.and_eq_true, ih, beq_iff_eq, List.map_cons,
      List.cons.injEq]

/-- What the check in memory accepts. -/
theorem verifyPieces_iff {files : List (Text × Bytes)} {pieceLength : Nat}
    {pieceHashes : List Sha1Digest} : verifyPieces files pieceLength pieceHashes = true ↔
      Pinned pieceLength pieceHashes (treeBytes files) := by
  unfold verifyPieces Pinned
  split
  · next hzero => simp [hzero]
  · next hpos =>
    dsimp only
    split
    · next hcount =>
      constructor
      · intro h
        cases h
      · rintro ⟨-, rfl⟩
        rw [List.length_map, length_blocks] at hcount
        exact absurd rfl hcount
    · next hcount =>
      refine (all_zip_eq (length_blocks.trans (not_not.mp hcount))).trans ?_
      exact ⟨fun h => ⟨Nat.pos_of_ne_zero hpos, h⟩, And.right⟩

/-! ## Streaming -/

/-- `StreamingPieceVerifier`. Between two calls the buffer holds less than a piece. -/
structure StreamingPieceVerifier where
  pieceLength : Nat
  pieceHashes : List Sha1Digest
  buf : Bytes
  nextPiece : Nat
  short : buf.length < pieceLength

namespace StreamingPieceVerifier

/-- `StreamingPieceVerifier::new`. -/
def new (pieceLength : Nat) (pieceHashes : List Sha1Digest) (h : 0 < pieceLength) :
    StreamingPieceVerifier :=
  ⟨pieceLength, pieceHashes, [], 0, h⟩

/-- `hash_and_check`, with the buffer as it is by then. -/
def hashAndCheck (v : StreamingPieceVerifier) (buf : Bytes) :
    Except BridgeError StreamingPieceVerifier :=
  match v.pieceHashes[v.nextPiece]? with
  | none => .error .pieceVerificationFailed
  | some expected =>
    if Sha1.digest buf ≠ expected then .error .pieceVerificationFailed
    else .ok { v with
      buf := []
      nextPiece := v.nextPiece + 1
      short := Nat.zero_lt_of_lt v.short }

/-- `feed`. -/
def feed (v : StreamingPieceVerifier) (data : Bytes) :
    Except BridgeError StreamingPieceVerifier :=
  if hne : data = [] then .ok v
  else
    let need := v.pieceLength - v.buf.length
    let take := min need data.length
    have hpos : 0 < take := by
      have := v.short
      have := List.length_pos_iff.mpr hne
      omega
    have hdrop : (data.drop take).length < data.length := by
      rw [List.length_drop]
      omega
    let buf := v.buf ++ data.take take
    have hle : buf.length ≤ v.pieceLength := by
      have := v.short
      rw [List.length_append, List.length_take]
      omega
    if hfull : buf.length = v.pieceLength then
      match v.hashAndCheck buf with
      | .error e => .error e
      | .ok v => feed v (data.drop take)
    else feed { v with buf := buf, short := Nat.lt_of_le_of_ne hle hfull } (data.drop take)
termination_by data.length

/-- `finish`. -/
def finish (v : StreamingPieceVerifier) : Except BridgeError Unit :=
  match (if v.buf ≠ [] then v.hashAndCheck v.buf else .ok v) with
  | .error e => .error e
  | .ok v =>
    if v.nextPiece ≠ v.pieceHashes.length then .error .pieceVerificationFailed else .ok ()

end StreamingPieceVerifier

/-- The inner loop of `verify_pieces_streaming`: the windows of a file as they are read. -/
def StreamingPieceVerifier.feedAll :
    StreamingPieceVerifier → List Bytes → Except BridgeError StreamingPieceVerifier
  | v, [] => .ok v
  | v, window :: rest =>
    match v.feed window with
    | .error e => .error e
    | .ok v => v.feedAll rest

/-- The outer loop of `verify_pieces_streaming`, reading through a buffer of `n` bytes. A read of a
file fills the buffer or ends the file. -/
def Disk.feedFiles (d : Disk) (n : Nat) : StreamingPieceVerifier → List (Text × Bytes) →
    Except BridgeError StreamingPieceVerifier
  | v, [] => .ok v
  | v, (name, path) :: files =>
    match d.sources.lookup path with
    | some (.file content) =>
      match v.feedAll (blocks n content) with
      | .error e => .error e
      | .ok v => d.feedFiles n v files
    | _ => .error (.source name)

/-- `verify_pieces_streaming`. -/
def Disk.verifyPiecesStreaming (d : Disk) (files : List (Text × Bytes)) (pieceLength : Nat)
    (pieceHashes : List Sha1Digest) : Except BridgeError Unit :=
  if h : 0 < pieceLength then
    match d.feedFiles (64 * 1024) (.new pieceLength pieceHashes h) files with
    | .error e => .error e
    | .ok v => v.finish
  else .error .pieceVerificationFailed

/-! ## What the verifier accepts -/

namespace StreamingPieceVerifier

/-- The pieces still to come are these. -/
def Expects (v : StreamingPieceVerifier) (pieces : List Bytes) : Prop :=
  v.nextPiece ≤ v.pieceHashes.length ∧ pieces.map Sha1.digest = v.pieceHashes.drop v.nextPiece

/-- The stream goes on with these bytes: with what is in the buffer they make up the pieces still
to come. -/
def Awaits (v : StreamingPieceVerifier) (data : Bytes) : Prop :=
  v.Expects (blocks v.pieceLength (v.buf ++ data))

omit [Sha1] in
theorem pos (v : StreamingPieceVerifier) : 0 < v.pieceLength := Nat.zero_lt_of_lt v.short

/-- A new verifier awaits the streams that have the piece hashes. -/
theorem new_awaits {pieceLength : Nat} {pieceHashes : List Sha1Digest} (h : 0 < pieceLength)
    {stream : Bytes} : (new pieceLength pieceHashes h).Awaits stream ↔
      Pinned pieceLength pieceHashes stream :=
  ⟨fun hawaits => ⟨h, hawaits.2⟩, fun hpinned => ⟨Nat.zero_le _, hpinned.2⟩⟩

/-- A piece is the next one to come, or is not. -/
theorem hashAndCheck_cases (v : StreamingPieceVerifier) (piece : Bytes) :
    (∃ v', v.hashAndCheck piece = .ok v' ∧ v'.pieceLength = v.pieceLength ∧ v'.buf = [] ∧
        ∀ pieces, v.Expects (piece :: pieces) ↔ v'.Expects pieces) ∨
      (v.hashAndCheck piece = .error .pieceVerificationFailed ∧
        ∀ pieces, ¬ v.Expects (piece :: pieces)) := by
  unfold hashAndCheck
  split
  · next hnone =>
    refine .inr ⟨rfl, ?_⟩
    rintro pieces ⟨-, h⟩
    rw [List.drop_eq_nil_of_le (List.getElem?_eq_none_iff.mp hnone)] at h
    cases h
  · next expected hsome =>
    obtain ⟨hlt, hget⟩ := List.getElem?_eq_some_iff.mp hsome
    have hdrop : v.pieceHashes.drop v.nextPiece =
        expected :: v.pieceHashes.drop (v.nextPiece + 1) := by
      rw [List.drop_eq_getElem_cons hlt, hget]
    split
    · next hne =>
      refine .inr ⟨rfl, ?_⟩
      rintro pieces ⟨-, h⟩
      rw [hdrop, List.map_cons] at h
      exact hne (List.cons.inj h).1
    · next he =>
      refine .inl ⟨_, rfl, rfl, rfl, fun pieces => ?_⟩
      rw [Expects, Expects, hdrop, List.map_cons, not_not.mp he, List.cons_inj_right]
      exact and_congr_left' (iff_of_true hlt.le hlt)

/-- Bytes that do not fill the buffer are added to it. -/
theorem feed_of_lt {v : StreamingPieceVerifier} {data : Bytes}
    (h : data.length < v.pieceLength - v.buf.length) :
    v.feed data = .ok { v with
      buf := v.buf ++ data
      short := by rw [List.length_append]; omega } := by
  by_cases hne : data = []
  · subst hne
    rw [feed, dif_pos rfl]
    simp
  · have hfull : ¬ (v.buf ++ data).length = v.pieceLength := by
      rw [List.length_append]
      omega
    rw [feed, dif_neg hne]
    simp only [Nat.min_eq_right h.le, List.take_length, List.drop_length]
    rw [dif_neg hfull, feed, dif_pos rfl]

/-- Bytes that fill the buffer make up a piece, which is checked before what is left is fed. -/
theorem feed_of_le {v : StreamingPieceVerifier} {data : Bytes}
    (h : v.pieceLength - v.buf.length ≤ data.length) :
    v.feed data = (v.hashAndCheck (v.buf ++ data.take (v.pieceLength - v.buf.length))).bind
      fun v' => v'.feed (data.drop (v.pieceLength - v.buf.length)) := by
  have hshort := v.short
  have hne : data ≠ [] := by
    rintro rfl
    rw [List.length_nil] at h
    omega
  have hfull : (v.buf ++ data.take (v.pieceLength - v.buf.length)).length = v.pieceLength := by
    rw [List.length_append, List.length_take]
    omega
  rw [feed, dif_neg hne]
  simp only [Nat.min_eq_left h]
  rw [dif_pos hfull]
  cases v.hashAndCheck (v.buf ++ data.take (v.pieceLength - v.buf.length)) with
  | error e => rfl
  | ok v' => rfl

/-- Feeding some bytes leaves the verifier awaiting what is to follow them, or nothing that begins
with them is awaited. -/
theorem feed_cases (v : StreamingPieceVerifier) (data : Bytes) :
    (∃ v', v.feed data = .ok v' ∧ ∀ tail, v.Awaits (data ++ tail) ↔ v'.Awaits tail) ∨
      (v.feed data = .error .pieceVerificationFailed ∧ ∀ tail, ¬ v.Awaits (data ++ tail)) := by
  have hshort := v.short
  by_cases h : data.length < v.pieceLength - v.buf.length
  · refine .inl ⟨_, feed_of_lt h, fun tail => ?_⟩
    rw [Awaits, Awaits, List.append_assoc]
    exact Iff.rfl
  · rw [feed_of_le (Nat.not_lt.mp h)]
    have hsplit := List.take_append_drop (v.pieceLength - v.buf.length) data
    have hfull : (v.buf ++ data.take (v.pieceLength - v.buf.length)).length = v.pieceLength := by
      rw [List.length_append, List.length_take]
      omega
    have hlt : (data.drop (v.pieceLength - v.buf.length)).length < data.length := by
      rw [List.length_drop]
      omega
    generalize data.take (v.pieceLength - v.buf.length) = front at *
    generalize data.drop (v.pieceLength - v.buf.length) = rest at *
    subst hsplit
    -- the piece that is now full is the first of those awaited
    have hpieces : ∀ tail, v.Awaits (front ++ rest ++ tail) ↔
        v.Expects ((v.buf ++ front) :: blocks v.pieceLength (rest ++ tail)) := by
      intro tail
      rw [Awaits, List.append_assoc, ← List.append_assoc, blocks_append v.pos hfull]
    rcases v.hashAndCheck_cases (v.buf ++ front) with ⟨v', he, hn, hbuf, hnext⟩ | ⟨he, hno⟩
    · have hawaits : ∀ tail, v.Awaits (front ++ rest ++ tail) ↔ v'.Awaits (rest ++ tail) := by
        intro tail
        rw [hpieces, hnext, Awaits, hn, hbuf, List.nil_append]
      rw [he]
      rcases feed_cases v' rest with ⟨v'', hfeed, hrest⟩ | ⟨hfeed, hrest⟩
      · exact .inl ⟨v'', hfeed, fun tail => (hawaits tail).trans (hrest tail)⟩
      · exact .inr ⟨hfeed, fun tail h => hrest tail ((hawaits tail).mp h)⟩
    · rw [he]
      exact .inr ⟨rfl, fun tail h => hno _ ((hpieces tail).mp h)⟩
termination_by data.length

/-- The end of the stream is accepted where nothing is awaited but the end. -/
theorem finish_iff (v : StreamingPieceVerifier) : v.finish = .ok () ↔ v.Awaits [] := by
  have hend : ∀ v : StreamingPieceVerifier,
      (if v.nextPiece ≠ v.pieceHashes.length then .error .pieceVerificationFailed else .ok () :
        Except BridgeError Unit) = .ok () ↔ v.Expects [] := by
    intro v
    rw [Expects, List.map_nil, eq_comm (a := []), List.drop_eq_nil_iff]
    split
    · next hne =>
      constructor
      · intro h
        cases h
      · rintro ⟨hle, hge⟩
        exact absurd (Nat.le_antisymm hle hge) hne
    · next he => exact iff_of_true rfl ⟨(not_not.mp he).le, (not_not.mp he).ge⟩
  rw [Awaits, List.append_nil, finish]
  by_cases hbuf : v.buf = []
  · rw [if_neg (not_not.mpr hbuf), hbuf, blocks_nil v.pos]
    exact hend v
  · rw [if_pos hbuf, blocks_of_length_le v.pos hbuf v.short.le]
    rcases v.hashAndCheck_cases v.buf with ⟨v', he, -, -, hnext⟩ | ⟨he, hno⟩
    · rw [he, hnext]
      exact hend v'
    · rw [he]
      constructor
      · intro h
        cases h
      · intro h
        exact absurd h (hno [])

/-- Feeding window after window is feeding what they make up. -/
theorem feedAll_cases (v : StreamingPieceVerifier) (windows : List Bytes) :
    (∃ v', v.feedAll windows = .ok v' ∧
        ∀ tail, v.Awaits (windows.flatten ++ tail) ↔ v'.Awaits tail) ∨
      (v.feedAll windows = .error .pieceVerificationFailed ∧
        ∀ tail, ¬ v.Awaits (windows.flatten ++ tail)) := by
  induction windows generalizing v with
  | nil => exact .inl ⟨v, rfl, fun tail => Iff.rfl⟩
  | cons window rest ih =>
    simp only [List.flatten_cons, List.append_assoc]
    rw [feedAll]
    rcases v.feed_cases window with ⟨v', he, hv'⟩ | ⟨he, hno⟩
    · rw [he]
      rcases ih v' with ⟨v'', hrest, hv''⟩ | ⟨hrest, hno⟩
      · exact .inl ⟨v'', hrest, fun tail => (hv' _).trans (hv'' tail)⟩
      · exact .inr ⟨hrest, fun tail h => hno tail ((hv' _).mp h)⟩
    · rw [he]
      exact .inr ⟨rfl, fun tail => hno _⟩

end StreamingPieceVerifier

omit [Sha1] in
/-- Where the first file is there, the others decide. -/
theorem Disk.exists_hasFiles_cons {d : Disk} {f : Text × Bytes} {files : List (Text × Bytes)}
    {content : Bytes} {P : List Bytes → Prop} (h : d.sources.lookup f.2 = some (.file content)) :
    (∃ contents, d.HasFiles (f :: files) contents ∧ P contents) ↔
      ∃ rest, d.HasFiles files rest ∧ P (content :: rest) := by
  constructor
  · rintro ⟨contents, hfiles, hP⟩
    obtain ⟨content', rest, rfl, hf, hrest⟩ := Disk.hasFiles_cons.mp hfiles
    rw [h] at hf
    cases hf
    exact ⟨rest, hrest, hP⟩
  · rintro ⟨rest, hrest, hP⟩
    exact ⟨content :: rest, Disk.hasFiles_cons.mpr ⟨content, rest, rfl, h, hrest⟩, hP⟩

/-- What feeding the files accepts: they are all there, and the stream goes on with what they make
up. -/
theorem Disk.feedFiles_ok {d : Disk} {n : Nat} (hn : 0 < n) {files : List (Text × Bytes)} :
    ∀ {v : StreamingPieceVerifier},
      (∃ v', d.feedFiles n v files = .ok v' ∧ v'.finish = .ok ()) ↔
        ∃ contents, d.HasFiles files contents ∧ v.Awaits contents.flatten := by
  induction files with
  | nil =>
    intro v
    simp [Disk.feedFiles, Disk.HasFiles, StreamingPieceVerifier.finish_iff]
  | cons f files ih =>
    intro v
    rw [Disk.feedFiles]
    split
    · next content hsource =>
      have hwindows : (blocks n content).flatten = content := flatten_blocks hn content
      rw [Disk.exists_hasFiles_cons hsource]
      rcases v.feedAll_cases (blocks n content) with ⟨v', he, hv'⟩ | ⟨he, hno⟩
      · simp only [hwindows] at hv'
        simp only [he, ih, List.flatten_cons, hv']
      · simp only [hwindows] at hno
        rw [he]
        constructor
        · rintro ⟨v', h, -⟩
          cases h
        · rintro ⟨rest, -, hawaits⟩
          exact absurd hawaits (hno rest.flatten)
    · next hsource =>
      constructor
      · rintro ⟨v', h, -⟩
        cases h
      · rintro ⟨contents, hfiles, -⟩
        obtain ⟨content, rest, -, hf, -⟩ := Disk.hasFiles_cons.mp hfiles
        exact absurd hf (hsource content)

/-- What the streaming check accepts, however it reads: files that are all there, and pinned. -/
theorem verifyPiecesStreaming_iff {d : Disk} {files : List (Text × Bytes)} {pieceLength : Nat}
    {pieceHashes : List Sha1Digest} :
    d.verifyPiecesStreaming files pieceLength pieceHashes = .ok () ↔
      ∃ contents, d.HasFiles files contents ∧ Pinned pieceLength pieceHashes contents.flatten := by
  unfold Disk.verifyPiecesStreaming
  split
  · next hpos =>
    simp only [← StreamingPieceVerifier.new_awaits hpos,
      ← Disk.feedFiles_ok (n := 64 * 1024) (by decide)]
    split
    · next e he => simp [he]
    · next v he => simp [he]
  · next hzero =>
    constructor
    · intro h
      cases h
    · rintro ⟨contents, -, hpos, -⟩
      exact absurd hpos hzero

end

/-! ## The digest of a one-byte piece -/

/-- The SHA-1 digest of the one byte `x`. -/
def sha1DigestOfX : Sha1Digest :=
  ⟨[0x11, 0xf6, 0xad, 0x8e, 0xc5, 0x2a, 0x29, 0x84, 0xab, 0xaa, 0xfd, 0x7c, 0x3b, 0x51, 0x65,
     0x03, 0x78, 0x5c, 0x20, 0x72], rfl⟩

/-- SHA-1 on this string. -/
abbrev sha1OfX : Sha1 := .ofTable [([120], sha1DigestOfX)]

/-- The name of a torrent. -/
def torrentName : Text := ⟨ascii "t", by decide⟩

/-- A torrent of one file, with the one byte `x`. -/
def torrentOfX (path : Text) : TorrentMeta where
  infohash := List.replicate 20 1
  name := torrentName
  files := [⟨path, 1⟩]
  pieceLength := 16384
  pieceHashes := [sha1DigestOfX]

end Np2ptp
