import Np2ptp.Bridge.Torrent

/-!
# Pieces, however they are read

A read returns as much as it likes of what is left of a file, so `verify_pieces_streaming` is
stated here on the buffers that the reads return (`verifyReads`); a file that is read in whole
windows, as `Disk.verifyPiecesStreaming` has it, is one way (`verifyPiecesStreaming_eq`). What is
accepted does not depend on how the files are cut (`feedReads_eq`), so it is what `verify_pieces`
accepts (`verify_reads_iff`), and the verifier never holds more than a piece.
-/

namespace Np2ptp

open Lib

section

variable [Sha1]

/-! ## Reading -/

/-- The inner loop of `verify_pieces_streaming`, on what the reads of a file return. A read that
returns nothing ends it. -/
def StreamingPieceVerifier.feedReads :
    StreamingPieceVerifier → List Bytes → Except BridgeError StreamingPieceVerifier
  | v, [] => .ok v
  | v, window :: reads =>
    if window = [] then .ok v
    else
      match v.feed window with
      | .error e => .error e
      | .ok v => v.feedReads reads

/-- The outer loop. -/
def StreamingPieceVerifier.feedFileReads :
    StreamingPieceVerifier → List (List Bytes) → Except BridgeError StreamingPieceVerifier
  | v, [] => .ok v
  | v, reads :: files =>
    match v.feedReads reads with
    | .error e => .error e
    | .ok v => v.feedFileReads files

/-- `verify_pieces_streaming`, on what the reads of the files return. -/
def verifyReads (files : List (List Bytes)) (pieceLength : Nat) (pieceHashes : List Sha1Digest) :
    Except BridgeError Unit :=
  if h : 0 < pieceLength then
    match (StreamingPieceVerifier.new pieceLength pieceHashes h).feedFileReads files with
    | .error e => .error e
    | .ok v => v.finish
  else .error .pieceVerificationFailed

/-! ## What the buffer holds -/

namespace StreamingPieceVerifier

omit [Sha1] in
/-- A turn of `feed` takes something off the data. -/
theorem length_drop_room_lt (v : StreamingPieceVerifier) {data : Bytes} (hne : data ≠ []) :
    (data.drop (min (v.pieceLength - v.buf.length) data.length)).length < data.length := by
  have := v.short
  have := List.length_pos_iff.mpr hne
  rw [List.length_drop]
  omega

omit [Sha1] in
/-- It fills the buffer up to a piece, and not above. -/
theorem length_buf_room_le (v : StreamingPieceVerifier) (data : Bytes) :
    (v.buf ++ data.take (min (v.pieceLength - v.buf.length) data.length)).length ≤
      v.pieceLength := by
  have := v.short
  rw [List.length_append, List.length_take]
  omega

/-- `feed`, with everything that the buffer holds on the way. -/
def feedTraced (v : StreamingPieceVerifier) (data : Bytes) :
    Except BridgeError StreamingPieceVerifier × List Bytes :=
  if hne : data = [] then (.ok v, [])
  else
    let take := min (v.pieceLength - v.buf.length) data.length
    have : (data.drop take).length < data.length := v.length_drop_room_lt hne
    let buf := v.buf ++ data.take take
    have hle : buf.length ≤ v.pieceLength := v.length_buf_room_le data
    if hfull : buf.length = v.pieceLength then
      match v.hashAndCheck buf with
      | .error e => (.error e, [buf])
      | .ok v =>
        let (r, held) := feedTraced v (data.drop take)
        (r, buf :: held)
    else
      let (r, held) := feedTraced { v with buf := buf, short := Nat.lt_of_le_of_ne hle hfull }
        (data.drop take)
      (r, buf :: held)
termination_by data.length
decreasing_by all_goals assumption

theorem feedTraced_fst (v : StreamingPieceVerifier) (data : Bytes) :
    (v.feedTraced data).1 = v.feed data := by
  fun_induction feedTraced v data with
  | case1 v => rw [feed, dif_pos rfl]
  | case2 v data hne take hdrop buf hle hfull e he =>
    rw [feed, dif_neg hne]
    refine ((dif_pos hfull).trans ?_).symm
    split
    · next e' he' => exact he'.symm.trans he
    · next v' he' => cases he'.symm.trans he
  | case3 v data hne take hdrop buf hle hfull v' he r held hrest ih =>
    rw [feed, dif_neg hne]
    refine ((dif_pos hfull).trans ?_).symm
    split
    · next e' he' => cases he'.symm.trans he
    · next v'' he' =>
      cases he'.symm.trans he
      rw [hrest] at ih
      exact ih.symm
  | case4 v data hne take hdrop buf hle hfull r held hrest ih =>
    rw [feed, dif_neg hne]
    refine ((dif_neg hfull).trans ?_).symm
    rw [hrest] at ih
    exact ih.symm

theorem hashAndCheck_pieceLength {v v' : StreamingPieceVerifier} {buf : Bytes}
    (h : v.hashAndCheck buf = .ok v') : v'.pieceLength = v.pieceLength := by
  rcases v.hashAndCheck_cases buf with ⟨v'', he, hn, -, -⟩ | ⟨he, -⟩
  · cases h.symm.trans he
    exact hn
  · cases h.symm.trans he

/-- The buffer never holds more than a piece. -/
theorem length_of_mem_feedTraced (v : StreamingPieceVerifier) (data : Bytes) :
    ∀ b ∈ (v.feedTraced data).2, b.length ≤ v.pieceLength := by
  fun_induction feedTraced v data with
  | case1 v => simp
  | case2 v data hne take hdrop buf hle hfull e he =>
    intro b hb
    rw [List.mem_singleton.mp hb]
    exact hle
  | case3 v data hne take hdrop buf hle hfull v' he r held hrest ih =>
    intro b hb
    rw [hrest, hashAndCheck_pieceLength he] at ih
    rcases List.mem_cons.mp hb with rfl | hb
    · exact hle
    · exact ih b hb
  | case4 v data hne take hdrop buf hle hfull r held hrest ih =>
    intro b hb
    rw [hrest] at ih
    rcases List.mem_cons.mp hb with rfl | hb
    · exact hle
    · exact ih b hb

theorem feed_pieceLength {v v' : StreamingPieceVerifier} {data : Bytes} (h : v.feed data = .ok v') :
    v'.pieceLength = v.pieceLength := by
  rw [← feedTraced_fst] at h
  fun_induction feedTraced v data with
  | case1 v =>
    cases h
    rfl
  | case2 v data hne take hdrop buf hle hfull e he => cases h
  | case3 v data hne take hdrop buf hle hfull v₁ he r held hrest ih =>
    rw [hrest] at ih
    rw [ih h, hashAndCheck_pieceLength he]
  | case4 v data hne take hdrop buf hle hfull r held hrest ih =>
    rw [hrest] at ih
    exact ih h

/-- Everything that the buffer holds while the windows are fed, up to the first that is refused. -/
def heldWhile : StreamingPieceVerifier → List Bytes → List Bytes
  | _, [] => []
  | v, window :: windows =>
    (v.feedTraced window).2 ++
      match v.feed window with
      | .error _ => []
      | .ok v => v.heldWhile windows

theorem length_of_mem_heldWhile (v : StreamingPieceVerifier) (windows : List Bytes) :
    ∀ b ∈ v.heldWhile windows, b.length ≤ v.pieceLength := by
  induction windows generalizing v with
  | nil =>
    intro b hb
    cases hb
  | cons window windows ih =>
    intro b hb
    rw [heldWhile] at hb
    rcases List.mem_append.mp hb with hb | hb
    · exact length_of_mem_feedTraced v window b hb
    · split at hb
      · cases hb
      · next v' hfeed =>
        rw [← feed_pieceLength hfeed]
        exact ih v' b hb

/-! ## The reads of all files -/

/-- Windows fed after others are fed with them. -/
theorem feedAll_append (v : StreamingPieceVerifier) (windows more : List Bytes) :
    v.feedAll (windows ++ more) = (v.feedAll windows).bind fun v' => v'.feedAll more := by
  induction windows generalizing v with
  | nil => rfl
  | cons window windows ih =>
    rw [List.cons_append, feedAll, feedAll]
    cases v.feed window with
    | error e => rfl
    | ok v' => exact ih v'

/-- Reads that all return something are fed. -/
theorem feedReads_eq {reads : List Bytes} (h : ∀ window ∈ reads, window ≠ [])
    (v : StreamingPieceVerifier) : v.feedReads reads = v.feedAll reads := by
  induction reads generalizing v with
  | nil => rfl
  | cons window reads ih =>
    rw [feedReads, feedAll, if_neg (h window List.mem_cons_self)]
    cases v.feed window with
    | error e => rfl
    | ok v' => exact ih (fun w hw => h w (List.mem_cons_of_mem window hw)) v'

/-- File boundaries do not matter: the reads of all files are fed one after the other. -/
theorem feedFileReads_eq {files : List (List Bytes)}
    (h : ∀ reads ∈ files, ∀ window ∈ reads, window ≠ []) (v : StreamingPieceVerifier) :
    v.feedFileReads files = v.feedAll files.flatten := by
  induction files generalizing v with
  | nil => rfl
  | cons reads files ih =>
    rw [feedFileReads, List.flatten_cons, feedAll_append, feedReads_eq (h reads List.mem_cons_self)]
    cases v.feedAll reads with
    | error e => rfl
    | ok v' => exact ih (fun r hr => h r (List.mem_cons_of_mem reads hr)) v'

end StreamingPieceVerifier

/-- What is accepted, however the files are read, is the stream that they make up. -/
theorem verifyReads_ok_iff {files : List (List Bytes)} {pieceLength : Nat}
    {pieceHashes : List Sha1Digest} (h : ∀ reads ∈ files, ∀ window ∈ reads, window ≠ []) :
    verifyReads files pieceLength pieceHashes = .ok () ↔
      Pinned pieceLength pieceHashes files.flatten.flatten := by
  unfold verifyReads
  split
  · next hpos =>
    rw [StreamingPieceVerifier.feedFileReads_eq h, ← StreamingPieceVerifier.new_awaits hpos]
    rcases StreamingPieceVerifier.feedAll_cases (.new pieceLength pieceHashes hpos) files.flatten
      with ⟨v', he, hawaits⟩ | ⟨he, hno⟩
    · have hend := hawaits []
      rw [List.append_nil] at hend
      rw [he, hend]
      exact v'.finish_iff
    · have hend := hno []
      rw [List.append_nil] at hend
      rw [he]
      exact iff_of_false (fun h => by cases h) hend
  · next hzero =>
    constructor
    · intro h
      cases h
    · rintro ⟨hpos, -⟩
      exact absurd hpos hzero

/-- One way of reading: whole windows of files that are there. -/
theorem verifyPiecesStreaming_eq {d : Disk} {files : List (Text × Bytes)} {contents : List Bytes}
    (h : d.HasFiles files contents) (pieceLength : Nat) (pieceHashes : List Sha1Digest) :
    d.verifyPiecesStreaming files pieceLength pieceHashes =
      verifyReads (contents.map (blocks (64 * 1024))) pieceLength pieceHashes := by
  have hfeed (n : Nat) (v : StreamingPieceVerifier) :
      d.feedFiles n v files = v.feedFileReads (contents.map (blocks n)) := by
    induction files generalizing contents v with
    | nil =>
      obtain rfl : contents = [] := List.map_eq_nil_iff.mp h.symm
      rfl
    | cons f files ih =>
      obtain ⟨content, rest, rfl, hf, hrest⟩ := Disk.hasFiles_cons.mp h
      have hwindows : ∀ window ∈ blocks n content, window ≠ [] := fun window hw =>
        List.length_pos_iff.mp (length_of_mem_blocks_le window hw).1
      rw [Disk.feedFiles, hf, List.map_cons, StreamingPieceVerifier.feedFileReads,
        StreamingPieceVerifier.feedReads_eq hwindows]
      dsimp only
      cases v.feedAll (blocks n content) with
      | error e => rfl
      | ok v' => exact ih hrest v'
  rw [Disk.verifyPiecesStreaming, verifyReads]
  by_cases hp : 0 < pieceLength
  · have hreads := hfeed (64 * 1024) (.new pieceLength pieceHashes hp)
    rw [dif_pos hp, dif_pos hp]
    cases hv : d.feedFiles (64 * 1024) (.new pieceLength pieceHashes hp) files with
    | error e => simp only [hv ▸ hreads.symm]
    | ok v => simp only [hv ▸ hreads.symm]
  · rw [dif_neg hp, dif_neg hp]

/-- Streaming verification is the one in memory. Whatever the reads of the files return, the two
accept the same contents, and the buffer never holds more than a piece. -/
theorem verify_reads_iff {files : List (Text × Bytes)} {reads : List (List Bytes)}
    (hcut : reads.map List.flatten = files.map Prod.snd)
    (hne : ∀ file ∈ reads, ∀ window ∈ file, window ≠ []) (pieceLength : Nat)
    (pieceHashes : List Sha1Digest) :
    (verifyReads reads pieceLength pieceHashes = .ok () ↔
      verifyPieces files pieceLength pieceHashes = true) ∧
    ∀ h : 0 < pieceLength, ∀ held ∈
      (StreamingPieceVerifier.new pieceLength pieceHashes h).heldWhile reads.flatten,
      held.length ≤ pieceLength := by
  have hstream : reads.flatten.flatten = treeBytes files := by
    rw [treeBytes, ← hcut, List.flatten_flatten]
  refine ⟨?_, fun h => StreamingPieceVerifier.length_of_mem_heldWhile _ _⟩
  rw [verifyReads_ok_iff hne, verifyPieces_iff, hstream]

end

/-- Two files of one byte, and a piece that spans them, read byte by byte. -/
theorem verify_reads_xx :
    let _ := sha1OfX
    let files := [(torrentName, [120]), (torrentName, [120])]
    (verifyReads [[[120]], [[120]]] 2 [sha1DigestOfX] = .ok () ↔
      verifyPieces files 2 [sha1DigestOfX] = true) ∧
    ∀ h : 0 < 2, ∀ held ∈
      (StreamingPieceVerifier.new 2 [sha1DigestOfX] h).heldWhile [[120], [120]],
      held.length ≤ 2 := by
  intro _ files
  have hcut : ([[[120]], [[120]]] : List (List Bytes)).map List.flatten = files.map Prod.snd := rfl
  exact verify_reads_iff hcut (by decide) 2 [sha1DigestOfX]

end Np2ptp
