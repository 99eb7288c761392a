import Np2ptp.Lib.LineReader
import Np2ptp.Lib.Utf8

/-!
# The requests on stdin

The thread of `run_daemon` that reads stdin, forwards its lines to the main loop, and reports a line
that is too long. One read takes a line of `MAX_LINE_BYTES` bytes and its newline; a read that ends
without one has met a longer line, whose rest is thrown away, or the last line. So every segment of
the stream is sent as one thing, and the next read starts with the next segment
(`readStdin_segments`).
-/

namespace Np2ptp

open Lib

/-- `MAX_LINE_BYTES`. -/
def MAX_LINE_BYTES : Nat := 8 * 1024 * 1024

/-- What the reader sends: a line to the main loop, or an error event to the writer. -/
inductive Sent where
  | line (line : Text)
  | error (id : UInt64) (message : String)
  deriving DecidableEq

/-- The event that reports a line that is too long. -/
def Sent.overflow : Sent :=
  .error 0 ("request line exceeds " ++ toString MAX_LINE_BYTES ++ " bytes — dropped")

/-- The reader, with `stdin` still to read. `takes n` says whether there is somebody to take the
`n`-th thing that is sent: an event that nobody takes is lost, and a line that nobody takes ends
the reader. -/
def readStdin (takes : Nat → Bool) (n : Nat) (stdin : Bytes) : List Sent :=
  let buf := (readPiece LF (MAX_LINE_BYTES + 1) stdin).1
  let rest := (readPiece LF (MAX_LINE_BYTES + 1) stdin).2
  -- end of input
  if buf = [] then []
  else if MAX_LINE_BYTES < buf.length ∧ buf.getLast? ≠ some LF then
    let sent := if takes n then [Sent.overflow] else []
    if (skipPiece LF MAX_LINE_BYTES rest).1 then
      sent ++ readStdin takes (n + 1) (skipPiece LF MAX_LINE_BYTES rest).2
    else sent
  else if takes n then .line (Text.ofLossy buf) :: readStdin takes (n + 1) rest
  else []
termination_by stdin.length
decreasing_by
  · exact (length_skipPiece_le _ _ _).trans_lt (length_readPiece_lt ‹_›)
  · exact length_readPiece_lt ‹_›

/-! ## Segments -/

/-- The stream, cut by newlines: every segment has its newline, but for a last one without. -/
def segments (stdin : Bytes) : List Bytes := pieces LF stdin

/-- The bytes of a segment before the newline. -/
def segmentContent (segment : Bytes) : Bytes := segment.takeWhile (· != LF)

/-- What a segment is sent as. -/
def reportOf (segment : Bytes) : Sent :=
  if (segmentContent segment).length ≤ MAX_LINE_BYTES then .line (Text.ofLossy segment)
  else .overflow

/-- One thing is sent, and then others. -/
def sendThen (takes : Nat → Bool) (n : Nat) (first : Sent) (later : List Sent) : List Sent :=
  match first with
  | .line _ => if takes n then first :: later else []
  | .error _ _ => if takes n then first :: later else later

/-- What comes of some things that are sent one after the other. -/
def delivered (takes : Nat → Bool) : Nat → List Sent → List Sent
  | _, [] => []
  | n, first :: later => sendThen takes n first (delivered takes (n + 1) later)

/-- Where everything is taken, everything comes. -/
theorem delivered_of_takes {takes : Nat → Bool} (h : ∀ n, takes n = true) (n : Nat)
    (sent : List Sent) : delivered takes n sent = sent := by
  induction sent generalizing n with
  | nil => rfl
  | cons first later ih =>
    rw [delivered, ih]
    cases first with
    | line _ => exact if_pos (h n)
    | error _ _ => exact if_pos (h n)

theorem segmentContent_line {l : Bytes} (hl : LF ∉ l) : segmentContent (l ++ [LF]) = l := by
  unfold segmentContent
  rw [List.takeWhile_append_of_pos fun b hb => by simpa using fun h : b = LF => hl (h ▸ hb)]
  simp

theorem segmentContent_last {l : Bytes} (hl : LF ∉ l) : segmentContent l = l :=
  List.takeWhile_eq_self_iff.mpr fun b hb => by simpa using fun h : b = LF => hl (h ▸ hb)

theorem MAX_LINE_BYTES_pos : 0 < MAX_LINE_BYTES := by decide

/-- An event that nobody takes is lost, and the reader goes on. -/
theorem sendThen_overflow (takes : Nat → Bool) (n : Nat) (later : List Sent) :
    sendThen takes n .overflow later = (if takes n then [Sent.overflow] else []) ++ later := by
  unfold Sent.overflow sendThen
  cases takes n with
  | true => rfl
  | false => rfl

/-- A read that has met a longer line holds none of its end. -/
theorem take_of_long {l : Bytes} (hl : LF ∉ l) (h : MAX_LINE_BYTES + 1 ≤ l.length) :
    l.take (MAX_LINE_BYTES + 1) ≠ [] ∧ MAX_LINE_BYTES < (l.take (MAX_LINE_BYTES + 1)).length ∧
      (l.take (MAX_LINE_BYTES + 1)).getLast? ≠ some LF := by
  have hlength := List.length_take_of_le h
  refine ⟨fun hnil => ?_, by omega, getLast?_ne_of_notMem fun hm => hl (List.mem_of_mem_take hm)⟩
  rw [hnil] at hlength
  cases hlength

/-- A line is sent as one thing, and the reader goes on with what follows it. -/
theorem readStdin_line (takes : Nat → Bool) (n : Nat) {l : Bytes} (hl : LF ∉ l) (t : Bytes) :
    readStdin takes n (l ++ LF :: t) =
      sendThen takes n (reportOf (l ++ [LF])) (readStdin takes (n + 1) t) := by
  rw [readStdin, reportOf, segmentContent_line hl]
  by_cases h : l.length ≤ MAX_LINE_BYTES
  · -- the newline has room in the read
    rw [readPiece_line hl (Nat.lt_succ_of_le h), if_pos h]
    dsimp only
    rw [if_neg (by simp), if_neg fun hover => hover.2 (by simp)]
    rfl
  · have hlong : MAX_LINE_BYTES + 1 ≤ l.length := Nat.lt_of_not_le h
    obtain ⟨hread, hover⟩ := take_of_long hl hlong
    rw [readPiece_cut hl hlong, if_neg h, sendThen_overflow]
    dsimp only
    rw [skipPiece_line (fun hm => hl (List.mem_of_mem_drop hm)) MAX_LINE_BYTES_pos, if_neg hread,
      if_pos hover]
    rfl

/-- A last line that is not closed is sent as one thing, and the reader ends. -/
theorem readStdin_last (takes : Nat → Bool) (n : Nat) {l : Bytes} (hl : LF ∉ l) (hne : l ≠ []) :
    readStdin takes n l = sendThen takes n (reportOf l) [] := by
  rw [readStdin, reportOf, segmentContent_last hl, readPiece_last hl]
  dsimp only
  by_cases h : l.length ≤ MAX_LINE_BYTES
  · have hnone : readStdin takes (n + 1) [] = [] := by
      rw [readStdin]
      rfl
    rw [List.take_of_length_le (Nat.le_succ_of_le h), List.drop_eq_nil_of_le (Nat.le_succ_of_le h),
      if_neg hne, if_neg fun hover => absurd hover.1 (Nat.not_lt.mpr h), if_pos h, hnone]
    rfl
  · obtain ⟨hread, hover⟩ := take_of_long hl (Nat.lt_of_not_le h)
    rw [skipPiece_last (fun hm => hl (List.mem_of_mem_drop hm)) MAX_LINE_BYTES_pos, if_neg hread,
      if_pos hover, if_neg h, sendThen_overflow, List.append_nil]
    rfl

/-- The whole stream: every segment is sent as one thing, in order. -/
theorem readStdin_eq (takes : Nat → Bool) (n : Nat) (stdin : Bytes) :
    readStdin takes n stdin = delivered takes n ((segments stdin).map reportOf) := by
  induction h : stdin.length using Nat.strong_induction_on generalizing n stdin with
  | _ length ih =>
    obtain ⟨l, t, hl, rfl⟩ | hl := line_or_last LF stdin
    · have hlt : t.length < length := by
        rw [← h, List.length_append, List.length_cons]
        omega
      rw [readStdin_line takes n hl, segments, pieces_line_append hl, List.map_cons, delivered,
        ih t.length hlt (n + 1) t rfl]
      rfl
    · by_cases hne : stdin = []
      · subst hne
        rw [readStdin]
        rfl
      · rw [readStdin_last takes n hl hne, segments, pieces_last hl hne, List.map_singleton]
        rfl

/-- A segment that is text is sent as it is. -/
theorem reportOf_of_valid {segment : Bytes}
    (hlength : (segmentContent segment).length ≤ MAX_LINE_BYTES)
    (h : validUtf8 segment = true) : reportOf segment = .line ⟨segment, h⟩ := by
  rw [reportOf, if_pos hlength, Text.ofLossy, Sent.line.injEq, Text.mk.injEq]
  exact lossy_of_valid h

/-- The reader never loses sync: while somebody takes what is sent, every segment is sent as one
thing, in order, one of at most `MAX_LINE_BYTES` bytes as the text made of it, which is the segment
itself where that is text, and a longer one as one error; and then the reader ends. An error that
nobody takes is lost, and the first line that nobody takes is the end. -/
theorem readStdin_segments (takes : Nat → Bool) (stdin : Bytes) :
    readStdin takes 0 stdin = delivered takes 0 ((segments stdin).map reportOf) ∧
    ((∀ n, takes n = true) → readStdin takes 0 stdin = (segments stdin).map reportOf) ∧
    (segments stdin).flatten = stdin ∧
    ∀ segment, (segmentContent segment).length ≤ MAX_LINE_BYTES → ∀ h : validUtf8 segment = true,
      reportOf segment = .line ⟨segment, h⟩ := by
  refine ⟨readStdin_eq takes 0 stdin, fun h => ?_, flatten_pieces stdin, fun _ => reportOf_of_valid⟩
  rw [readStdin_eq, delivered_of_takes h]

/-! ## Bytes that are not text -/

/-- The bytes that are forwarded, if any are. -/
def Sent.forwarded : Sent → Option Bytes
  | .line text => some text.bytes
  | .error _ _ => none

/-- A byte that starts no character is not forwarded as it is, and nothing is forwarded when the
main loop has ended. -/
theorem readStdin_not_text :
    (readStdin (fun _ => true) 0 [255]).filterMap Sent.forwarded ≠
      (segments [255]).filter (fun segment => (segmentContent segment).length ≤ MAX_LINE_BYTES) ∧
    (readStdin (fun _ => false) 0 [97]).filterMap Sent.forwarded ≠
      (segments [97]).filter fun segment => (segmentContent segment).length ≤ MAX_LINE_BYTES := by
  rw [readStdin_eq, readStdin_eq]
  decide

end Np2ptp
