import Np2ptp.Lib.Runs
import Np2ptp.Node.Lines
import Np2ptp.Node.Output
import Np2ptp.Node.Proto

/-!
# Standard input and output of the daemon

`run_daemon`: the thread that reads stdin, the loop that takes its lines, a task for each request,
and the writer of stdout, with the two channels between them. The parts take their steps in any
order; a task ends well, with an error or in a panic; the loop ends with stdin, at a request, or
when stdout is gone; and the process ends some time later. Whatever the order, each line that was
read has one terminal event under its own number, or its task or the line itself is still there
(`requests_answered_once`), and while the loop runs nothing but its own work keeps a request from
its answer, be it that the work of others never ends (`held_up_by_own_work_only`).
-/

namespace Np2ptp

open Lib Proto

/-! ## Tasks -/

/-- What a task works on. -/
inductive Work where
  | op (op : Op)
  | dial (v : Json)

/-- How its work ends. -/
inductive Ending where
  | done (fields : Fields)
  | failed (message : String)
  | panicked

/-- How far a task is. -/
inductive Stage where
  | running
  /-- The inner task is over; its end has not been reported. -/
  | ended (ending : Ending)
  | reported

/-- A task that `execute` or the loop has spawned. -/
structure Errand where
  id : UInt64
  work : Work
  stage : Stage

/-- The ways in which the work can end: `run_op` reports the fields of its operation, and
`dispatch_dial` refuses a request without an address. -/
def Work.mayEnd : Work → Ending → Bool
  | .op (.fetch _ _), .done (.fetch _ _ _) => true
  | .op (.convert (some _) (some _) none), .done (.convertTorrent _ _ _ _ _ _) => true
  | .op (.convert none none (some _)), .done (.convertPath _ _ _ _) => true
  | .op (.torrent _ _), .done (.torrent _ _ _ _ _) => true
  | .op (.provide _), .done (.provide _ _ _) => true
  | .op (.unprovide _), .done (.unprovide _) => true
  | .op .status, .done (.status _ _ _ _ _ _ _) => true
  | .op .shutdown, .done .shutdown => true
  | .op .shutdown, .failed _ => false
  | .op _, .failed _ => true
  | .dial v, .done (.dial addr) => (v.get "addr").bind Json.asStr == some addr
  | .dial v, .failed message =>
    ((v.get "addr").bind Json.asStr).isSome ||
      message == "dial requires a string \"addr\" (multiaddr)"
  | _, .panicked => true
  | _, _ => false

/-- The terminal event for an ending: a panic is reported as an error. -/
def terminalEvent (id : UInt64) : Ending → Json
  | .done fields => eventResult id fields.entries
  | .failed message => eventError id message
  | .panicked => eventError id "internal error"

theorem terminalOf_terminalEvent (id : UInt64) (ending : Ending) :
    terminalOf (terminalEvent id ending) = some id := by
  cases ending with
  | done fields => exact terminalOf_eventResult id fields
  | failed message => rfl
  | panicked => rfl

/-- The operations that report progress, and the name they do it under. -/
def Proto.Op.progressName : Op → Option String
  | .fetch _ _ => some "fetch"
  | .convert _ _ _ => some "convert"
  | .torrent _ _ => some "torrent"
  | _ => none

def Work.isShutdown : Work → Bool
  | .op .shutdown => true
  | _ => false

/-! ## The parts and their steps -/

inductive StdioPhase where
  | starting
  | looping
  /-- The loop is over; the process waits for the writer, but not for long. -/
  | over
  | exited
  deriving DecidableEq

/-- `run_daemon`. -/
structure Stdio where
  phase : StdioPhase
  /-- What the reader has still to send. -/
  unread : List Sent
  /-- The lines that the loop has still to take. -/
  inbox : List Text
  /-- `shutdown` has been notified. -/
  notified : Bool
  errands : List Errand
  /-- The events that the writer has still to write. -/
  channel : List Json
  /-- The writer takes events. -/
  receiving : Bool
  printed : List Json
  /-- All that the reader has sent. -/
  received : List Sent
  /-- All events that were sent. -/
  emitted : List Json

/-- Before anything has happened. -/
def Stdio.start (stdin : Bytes) : Stdio where
  phase := .starting
  unread := readStdin (fun _ => true) 0 stdin
  inbox := []
  notified := false
  errands := []
  channel := []
  receiving := true
  printed := []
  received := []
  emitted := []

/-- An event is sent; a channel that is closed does not take it. -/
def Stdio.emit (s : Stdio) (v : Json) : Stdio :=
  { s with
    channel := if s.receiving then s.channel ++ [v] else s.channel
    emitted := s.emitted ++ [v] }

def Stdio.spawn (s : Stdio) (id : UInt64) (work : Work) : Stdio :=
  { s with errands := s.errands ++ [⟨id, work, .running⟩] }

/-- What happens next, and what its part of the environment does. -/
inductive Stdio.Event where
  /-- The reader sends; `upgrades` says whether somebody holds a sender for its errors. -/
  | read (upgrades : Bool)
  /-- Reading fails, and the reader is over. -/
  | readError
  /-- The setup is done. -/
  | ready (version peer : String) (addrs : List String)
  /-- The setup fails, and the process ends. -/
  | fail
  | take
  /-- Stdin is closed and all its lines are taken. -/
  | close
  | stop
  | progress (i : Nat) (done total : UInt64)
  /-- A task, an announce loop or the setup warns. -/
  | warn (message : String)
  | finish (i : Nat) (ending : Ending)
  | report (i : Nat)
  | write (ok : Bool)
  | exit

/-- The number under which a task has still to answer. -/
def Errand.pending (errand : Errand) : Option UInt64 :=
  match errand.stage with
  | .reported => none
  | _ => some errand.id

/-- The numbers of the terminal events. -/
def Stdio.answered (s : Stdio) : List UInt64 := s.emitted.filterMap terminalOf

/-- The numbers of the tasks that are there. -/
def Stdio.pending (s : Stdio) : List UInt64 := s.errands.filterMap Errand.pending

/-- What is counted in a list after one of its elements was replaced. -/
theorem count_filterMap_set {α β : Type*} [BEq β] (f : α → Option β) {l : List α} {i : Nat} {a : α}
    (h : l[i]? = some a) (b : α) (x : β) :
    ((l.set i b).filterMap f).count x + (f a).toList.count x =
      (l.filterMap f).count x + (f b).toList.count x := by
  obtain ⟨hi, rfl⟩ := List.getElem?_eq_some_iff.mp h
  obtain ⟨l₁, l₂, hl, -, hset⟩ :
      ∃ l₁ l₂, l = l₁ ++ l[i] :: l₂ ∧ l₁.length = i ∧ l.set i b = l₁ ++ b :: l₂ :=
    List.exists_of_set hi
  have hcount (c : α) : ((l₁ ++ c :: l₂).filterMap f).count x =
      (l₁.filterMap f).count x + (f c).toList.count x + (l₂.filterMap f).count x := by
    rw [List.filterMap_append, List.count_append, ← List.singleton_append, List.filterMap_append,
      List.count_append, ← Nat.add_assoc]
    cases hc : f c <;> simp [hc]
  rw [hset, hcount b]
  generalize l[i] = a at hl ⊢
  rw [hl, hcount a]
  omega

/-- An event that is sent answers its own number. -/
theorem Stdio.count_answered_emit (s : Stdio) (v : Json) (id : UInt64) :
    (s.emit v).answered.count id = s.answered.count id + (terminalOf v).toList.count id := by
  show ((s.emitted ++ [v]).filterMap terminalOf).count id = _
  rw [List.filterMap_append, List.count_append]
  cases hv : terminalOf v <;> simp [Stdio.answered, hv]

theorem Stdio.count_pending_spawn (s : Stdio) (i : UInt64) (work : Work) (id : UInt64) :
    (s.spawn i work).pending.count id = s.pending.count id + [i].count id := by
  show ((s.errands ++ [(⟨i, work, .running⟩ : Errand)]).filterMap Errand.pending).count id = _
  rw [List.filterMap_append, List.count_append]
  rfl

/-- A step on the way of a line to its answer that the daemon takes by itself: all of them but the
end of the work. -/
def Stdio.Event.own : Stdio.Event → Bool
  | .read _ => true
  | .take => true
  | .report _ => true
  | _ => false

section

variable [SerdeJson]

/-- What the loop does with a line: `line` is what is left of it without white space. -/
def Stdio.dispatch (s : Stdio) (line : Bytes) : Stdio :=
  if line = [] then s
  else
    match dialFallbackValue line with
    | some v => s.spawn (idOf v) (.dial v)
    | none =>
      match parseRequest line with
      | .ok req => s.spawn req.id (.op req.op)
      -- `handle_line`
      | .error e => s.emit (eventError (rawId line) e)

/-- One step. -/
def Stdio.step (s : Stdio) : Stdio.Event → Option Stdio
  | .read upgrades =>
    match s.unread with
    | [] => none
    | .line t :: rest =>
      if s.phase = .exited then none
      else some { s with
        unread := rest
        inbox := s.inbox ++ [t]
        received := s.received ++ [.line t] }
    | .error id message :: rest =>
      if s.phase = .exited then none
      else if upgrades then
        some ({ s with unread := rest, received := s.received ++ [Sent.error id message] }.emit
          (eventError id message))
      else if s.phase = .over then some { s with unread := rest }
      else none
  | .readError => if s.phase = .exited then none else some { s with unread := [] }
  | .ready version peer addrs =>
    if s.phase = .starting then
      some ({ s with phase := .looping }.emit (readyLine version peer addrs))
    else none
  | .fail => if s.phase = .starting then some { s with phase := .exited } else none
  | .take =>
    match s.inbox with
    | [] => none
    | t :: rest =>
      if s.phase = .looping then some ({ s with inbox := rest }.dispatch (trim t.bytes)) else none
  | .close =>
    if s.phase = .looping ∧ s.unread = [] ∧ s.inbox = [] then some { s with phase := .over }
    else none
  | .stop =>
    if s.phase = .looping ∧ s.notified then some { s with phase := .over, notified := false }
    else none
  | .progress i done total =>
    match s.errands[i]? with
    | some ⟨id, .op op, .running⟩ =>
      if s.phase = .exited then none
      else op.progressName.map fun name => s.emit (eventProgress id name done total)
    | _ => none
  | .warn message =>
    if s.phase = .exited then none else some (s.emit (eventWarn message))
  | .finish i ending =>
    match s.errands[i]? with
    | some ⟨id, work, .running⟩ =>
      if s.phase ≠ .exited ∧ work.mayEnd ending then
        some { s with
          errands := s.errands.set i ⟨id, work, .ended ending⟩
          notified := s.notified || work.isShutdown }
      else none
    | _ => none
  | .report i =>
    match s.errands[i]? with
    | some ⟨id, work, .ended ending⟩ =>
      if s.phase = .exited then none
      else some ({ s with errands := s.errands.set i ⟨id, work, .reported⟩ }.emit
        (terminalEvent id ending))
    | _ => none
  | .write ok =>
    match s.channel with
    | [] => none
    | v :: rest =>
      if s.phase = .exited then none
      else if ok then some { s with channel := rest, printed := s.printed ++ [v] }
      -- stdout is gone
      else some { s with notified := true, receiving := false, channel := [] }
  | .exit => if s.phase = .over then some { s with phase := .exited } else none

/-- The steps that there are, one constructor for each outcome. -/
inductive Stdio.Moves (s : Stdio) : Stdio.Event → Stdio → Prop
  | hears (up : Bool) (t : Text) (rest : List Sent) : s.unread = .line t :: rest →
    Moves s (.read up) { s with
      unread := rest
      inbox := s.inbox ++ [t]
      received := s.received ++ [.line t] }
  | complains (id : UInt64) (message : String) (rest : List Sent) :
    s.unread = .error id message :: rest → Moves s (.read true)
      (Stdio.emit { s with unread := rest, received := s.received ++ [.error id message] }
        (eventError id message))
  /-- An error that nobody takes is lost. -/
  | loses (x : Sent) (rest : List Sent) : s.unread = x :: rest → s.phase = .over →
    Moves s (.read false) { s with unread := rest }
  | stopsReading : Moves s .readError { s with unread := [] }
  | turns (a : Stdio.Event) (phase : StdioPhase) (notified : Bool) :
    a.own = false → Moves s a { s with phase := phase, notified := notified }
  | notes (a : Stdio.Event) (phase : StdioPhase) (v : Json) : a.own = false →
    terminalOf v = none → Moves s a (Stdio.emit { s with phase := phase } v)
  | takes (t : Text) (rest : List Text) : s.inbox = t :: rest →
    Moves s .take (Stdio.dispatch { s with inbox := rest } (trim t.bytes))
  | finishes (i : Nat) (id : UInt64) (work : Work) (ending : Ending) (notified : Bool) :
    s.errands[i]? = some ⟨id, work, .running⟩ → Moves s (.finish i ending)
      { s with errands := s.errands.set i ⟨id, work, .ended ending⟩, notified := notified }
  | reports (i : Nat) (id : UInt64) (work : Work) (ending : Ending) :
    s.errands[i]? = some ⟨id, work, .ended ending⟩ → Moves s (.report i)
      (Stdio.emit { s with errands := s.errands.set i ⟨id, work, .reported⟩ }
        (terminalEvent id ending))
  | writes (v : Json) (rest : List Json) : s.channel = v :: rest →
    Moves s (.write true) { s with channel := rest, printed := s.printed ++ [v] }
  | breaks : Moves s (.write false) { s with notified := true, receiving := false, channel := [] }

theorem Stdio.step_moves {s s' : Stdio} {a : Stdio.Event} (h : s.step a = some s') :
    s.Moves a s' := by
  cases a with
  | read upgrades =>
    rw [Stdio.step] at h
    split at h
    · cases h
    · next t rest hunread =>
      split at h
      · cases h
      · cases h
        exact .hears _ t rest hunread
    · next id message rest hunread =>
      split at h
      · cases h
      · split at h
        · next hup =>
          cases h
          obtain rfl : upgrades = true := hup
          exact .complains id message rest hunread
        · next hup =>
          split at h
          · next hover =>
            cases h
            obtain rfl : upgrades = false := Bool.eq_false_of_not_eq_true hup
            exact .loses _ rest hunread hover
          · cases h
  | readError =>
    rw [Stdio.step] at h
    split at h
    · cases h
    · cases h
      exact .stopsReading
  | ready version peer addrs =>
    rw [Stdio.step] at h
    split at h
    · cases h
      exact .notes _ .looping _ rfl rfl
    · cases h
  | take =>
    rw [Stdio.step] at h
    split at h
    · cases h
    · next t rest hinbox =>
      split at h
      · cases h
        exact .takes t rest hinbox
      · cases h
  | progress i done total =>
    rw [Stdio.step] at h
    split at h
    · split at h
      · cases h
      · obtain ⟨name, -, rfl⟩ := Option.map_eq_some_iff.mp h
        exact .notes _ s.phase _ rfl rfl
    · cases h
  | warn message =>
    rw [Stdio.step] at h
    split at h
    · cases h
    · cases h
      exact .notes _ s.phase _ rfl rfl
  | finish i ending =>
    rw [Stdio.step] at h
    split at h
    · next id work hjob =>
      split at h
      · cases h
        exact .finishes i id work ending _ hjob
      · cases h
    · cases h
  | report i =>
    rw [Stdio.step] at h
    split at h
    · next id work ending hjob =>
      split at h
      · cases h
      · cases h
        exact .reports i id work ending hjob
    · cases h
  | write ok =>
    rw [Stdio.step] at h
    split at h
    · cases h
    · next v rest hchannel =>
      split at h
      · cases h
      · split at h
        · next hok =>
          cases h
          obtain rfl : ok = true := hok
          exact .writes v rest hchannel
        · next hok =>
          cases h
          obtain rfl : ok = false := Bool.eq_false_of_not_eq_true hok
          exact .breaks
  | _ =>
    rw [Stdio.step] at h
    split at h
    · cases h
      exact .turns _ _ _ rfl
    · cases h

/-! ## The tally -/

/-- The number that a line asks under, if it is not blank. -/
def lineId (line : Bytes) : Option UInt64 :=
  if trim line = [] then none else some (rawId (trim line))

/-- The number under which what the reader sends is to be answered. -/
def Sent.asks : Sent → Option UInt64
  | .line t => lineId t.bytes
  | .error id _ => some id

/-- The numbers of the lines that the loop has still to take. -/
def Stdio.waiting (s : Stdio) : List UInt64 := s.inbox.filterMap fun t => lineId t.bytes

/-- The numbers of all that the reader has sent. -/
def Stdio.asked (s : Stdio) : List UInt64 := s.received.filterMap Sent.asks

/-- Under each number, as many are answered, at work or waiting as were asked. -/
def Stdio.Tallied (s : Stdio) : Prop := ∀ id,
  s.answered.count id + s.pending.count id + s.waiting.count id = s.asked.count id

theorem Stdio.dispatch_inbox (s : Stdio) (line : Bytes) :
    (s.dispatch line).inbox = s.inbox ∧ (s.dispatch line).received = s.received := by
  unfold Stdio.dispatch
  split
  · exact ⟨rfl, rfl⟩
  · split
    · exact ⟨rfl, rfl⟩
    · split
      · exact ⟨rfl, rfl⟩
      · exact ⟨rfl, rfl⟩

/-- The loop loses no line: one that it takes is a task then, or has its answer. -/
theorem Stdio.count_dispatch (hserde : SerdeJson.Lawful) (s : Stdio) (line : Bytes)
    (id : UInt64) :
    (s.dispatch line).answered.count id + (s.dispatch line).pending.count id =
      s.answered.count id + s.pending.count id +
        (if line = [] then [] else [rawId line]).count id := by
  unfold Stdio.dispatch
  by_cases hblank : line = []
  · rw [if_pos hblank, if_pos hblank]
    rfl
  · rw [if_neg hblank, if_neg hblank]
    split
    · next v hdial =>
      rw [Stdio.count_pending_spawn, id_of_dialFallbackValue hdial, ← Nat.add_assoc]
      rfl
    · split
      · next req hreq =>
        rw [Stdio.count_pending_spawn, id_of_parseRequest hserde hreq, ← Nat.add_assoc]
        rfl
      · next e he =>
        rw [Stdio.count_answered_emit, terminalOf_eventError, Nat.add_right_comm]
        rfl

/-- An event that ends nothing changes nothing in the tally. -/
theorem Stdio.Tallied.emit {s : Stdio} (h : s.Tallied) {v : Json} (hv : terminalOf v = none) :
    (s.emit v).Tallied := by
  intro id
  rw [Stdio.count_answered_emit, hv]
  exact h id

/-- One step keeps the tally. -/
theorem Stdio.Moves.tallied (hserde : SerdeJson.Lawful) {s s' : Stdio} {a : Stdio.Event}
    (hmove : s.Moves a s') (h : s.Tallied) : s'.Tallied := by
  cases hmove with
  | hears up t rest hunread =>
    intro id
    show s.answered.count id + s.pending.count id +
      ((s.inbox ++ [t]).filterMap fun t => lineId t.bytes).count id =
      ((s.received ++ [Sent.line t]).filterMap Sent.asks).count id
    rw [List.filterMap_append, List.filterMap_append, List.count_append, List.count_append,
      ← Nat.add_assoc]
    exact congrArg₂ (· + ·) (h id) rfl
  | complains i message rest hunread =>
    intro id
    have hbefore := h id
    rw [Stdio.count_answered_emit, terminalOf_eventError]
    show s.answered.count id + [i].count id + s.pending.count id + s.waiting.count id =
      ((s.received ++ [Sent.error i message]).filterMap Sent.asks).count id
    rw [List.filterMap_append, List.count_append]
    show _ = s.asked.count id + [i].count id
    omega
  | notes _ phase v _ hv => exact Stdio.Tallied.emit (s := { s with phase := phase }) h hv
  | takes t rest hinbox =>
    intro id
    have hbefore := h id
    have hcount := Stdio.count_dispatch hserde { s with inbox := rest } (trim t.bytes) id
    obtain ⟨hrest, hreceived⟩ := Stdio.dispatch_inbox { s with inbox := rest } (trim t.bytes)
    have hwaiting : s.waiting.count id = (lineId t.bytes).toList.count id +
        (rest.filterMap fun t => lineId t.bytes).count id := by
      rw [Stdio.waiting, hinbox, List.filterMap_cons]
      cases lineId t.bytes with
      | none => exact (Nat.zero_add _).symm
      | some i =>
        show ([i] ++ rest.filterMap fun t => lineId t.bytes).count id = _
        exact List.count_append
    have hline : (lineId t.bytes).toList =
        if trim t.bytes = [] then [] else [rawId (trim t.bytes)] := by
      rw [lineId]
      split
      · rfl
      · rfl
    rw [hcount, Stdio.waiting, Stdio.asked, hrest, hreceived]
    rw [hwaiting, hline] at hbefore
    show s.answered.count id + s.pending.count id + _ +
      (rest.filterMap fun t => lineId t.bytes).count id = s.asked.count id
    omega
  | finishes i j work ending notified hjob =>
    intro id
    have hcount := count_filterMap_set Errand.pending hjob ⟨j, work, .ended ending⟩ id
    have hsame : ((s.errands.set i ⟨j, work, .ended ending⟩).filterMap Errand.pending).count id =
        s.pending.count id := Nat.add_right_cancel hcount
    show s.answered.count id + ((s.errands.set i ⟨j, work, .ended ending⟩).filterMap
      Errand.pending).count id + s.waiting.count id = s.asked.count id
    rw [hsame]
    exact h id
  | reports i j work ending hjob =>
    intro id
    have hcount := count_filterMap_set Errand.pending hjob ⟨j, work, .reported⟩ id
    have hless : ((s.errands.set i ⟨j, work, .reported⟩).filterMap Errand.pending).count id +
        [j].count id = s.pending.count id := hcount
    have hbefore := h id
    rw [Stdio.count_answered_emit, terminalOf_terminalEvent]
    show s.answered.count id + [j].count id + ((s.errands.set i ⟨j, work, .reported⟩).filterMap
      Errand.pending).count id + s.waiting.count id = s.asked.count id
    omega
  | _ => exact h

/-! ## The output -/

/-- Events are printed in the order in which they were sent, and none is passed over. -/
structure Stdio.Delivers (s : Stdio) : Prop where
  prefixed : s.printed <+: s.emitted
  whole : s.receiving = true → s.emitted = s.printed ++ s.channel
  closed : s.receiving = false → s.channel = []

/-- What the loop does with a line. -/
theorem Stdio.dispatch_cases (s : Stdio) (line : Bytes) :
    s.dispatch line = s ∨ (∃ id work, s.dispatch line = s.spawn id work) ∨
      ∃ v, s.dispatch line = s.emit v := by
  unfold Stdio.dispatch
  split
  · exact .inl rfl
  · split
    · exact .inr (.inl ⟨_, _, rfl⟩)
    · split
      · exact .inr (.inl ⟨_, _, rfl⟩)
      · exact .inr (.inr ⟨_, rfl⟩)

omit [SerdeJson] in
theorem Stdio.Delivers.emit {s : Stdio} (h : s.Delivers) (v : Json) : (s.emit v).Delivers := by
  refine ⟨h.prefixed.trans (List.prefix_append _ _), fun hr => ?_, fun hr => ?_⟩
  · have hreceiving : s.receiving = true := hr
    show s.emitted ++ [v] = s.printed ++ if s.receiving then s.channel ++ [v] else s.channel
    rw [if_pos hreceiving, h.whole hreceiving, List.append_assoc]
  · have hreceiving : s.receiving = false := hr
    show (if s.receiving then s.channel ++ [v] else s.channel) = []
    rw [if_neg (by rw [hreceiving]; exact Bool.false_ne_true)]
    exact h.closed hreceiving

/-- One step keeps the output in order. -/
theorem Stdio.Moves.delivers {s s' : Stdio} {a : Stdio.Event} (hmove : s.Moves a s')
    (h : s.Delivers) : s'.Delivers := by
  have hcopy (t : Stdio) (hprinted : t.printed = s.printed) (hemitted : t.emitted = s.emitted)
      (hchannel : t.channel = s.channel) (hreceiving : t.receiving = s.receiving) :
      t.Delivers := by
    refine ⟨?_, ?_, ?_⟩
    · rw [hprinted, hemitted]
      exact h.prefixed
    · rw [hprinted, hemitted, hchannel, hreceiving]
      exact h.whole
    · rw [hchannel, hreceiving]
      exact h.closed
  cases hmove with
  | complains i message rest =>
    have hread : Stdio.Delivers { s with
        unread := rest
        received := s.received ++ [.error i message] } := hcopy _ rfl rfl rfl rfl
    exact hread.emit _
  | notes _ phase => exact Stdio.Delivers.emit (hcopy { s with phase := phase } rfl rfl rfl rfl) _
  | takes t rest =>
    have hrest : Stdio.Delivers { s with inbox := rest } := hcopy _ rfl rfl rfl rfl
    rcases Stdio.dispatch_cases { s with inbox := rest } (trim t.bytes) with
      heq | ⟨id, work, heq⟩ | ⟨v, heq⟩
    · rw [heq]
      exact hrest
    · rw [heq]
      exact ⟨hrest.prefixed, hrest.whole, hrest.closed⟩
    · rw [heq]
      exact hrest.emit v
  | reports i id work =>
    have hjobs : Stdio.Delivers { s with errands := s.errands.set i ⟨id, work, .reported⟩ } :=
      hcopy _ rfl rfl rfl rfl
    exact hjobs.emit _
  | writes v rest hchannel =>
    have hreceiving : s.receiving = true := by
      cases hr : s.receiving with
      | true => rfl
      | false =>
        rw [h.closed hr] at hchannel
        cases hchannel
    have hwhole := h.whole hreceiving
    rw [hchannel] at hwhole
    refine ⟨?_, fun _ => ?_, fun hr => ?_⟩
    · show s.printed ++ [v] <+: s.emitted
      rw [hwhole]
      exact ⟨rest, by rw [List.append_assoc]; rfl⟩
    · show s.emitted = s.printed ++ [v] ++ rest
      rw [hwhole, List.append_assoc]
      rfl
    · have hr : s.receiving = false := hr
      rw [hreceiving] at hr
      cases hr
  | breaks => exact ⟨h.prefixed, fun hr => (by cases hr), fun _ => rfl⟩
  | _ => exact hcopy _ rfl rfl rfl rfl

/-- What was printed. -/
def Stdio.stdout (s : Stdio) : Bytes := s.printed.flatMap fun v => SerdeJson.render v ++ [LF]

/-- Whoever cuts the output at its newlines has the events. -/
theorem Stdio.segments_stdout (hserde : SerdeJson.Lawful) (s : Stdio) :
    segments s.stdout = s.printed.map fun v => SerdeJson.render v ++ [LF] := by
  have h (vs : List Json) : segments (vs.flatMap fun v => SerdeJson.render v ++ [LF]) =
      vs.map fun v => SerdeJson.render v ++ [LF] := by
    induction vs with
    | nil => rfl
    | cons v vs ih =>
      rw [List.flatMap_cons, List.append_assoc, List.singleton_append, segments,
        pieces_line_append (hserde.render_line v), List.map_cons]
      exact congrArg _ ih
  exact h s.printed

/-! ## The input -/

/-- What the reader has sent and what it has still to send, in their order. -/
theorem Stdio.Moves.reads {s s' : Stdio} {a : Stdio.Event} (hmove : s.Moves a s') :
    (s'.received ++ s'.unread).Sublist (s.received ++ s.unread) ∧
      (a ≠ .readError → a ≠ .read false → s'.received ++ s'.unread = s.received ++ s.unread) := by
  cases hmove with
  | hears up t rest hunread =>
    have hsame : s.received ++ [Sent.line t] ++ rest = s.received ++ s.unread := by
      rw [hunread, List.append_assoc]
      rfl
    exact ⟨hsame ▸ List.Sublist.refl _, fun _ _ => hsame⟩
  | complains id message rest hunread =>
    have hsame : s.received ++ [Sent.error id message] ++ rest = s.received ++ s.unread := by
      rw [hunread, List.append_assoc]
      rfl
    exact ⟨hsame ▸ List.Sublist.refl _, fun _ _ => hsame⟩
  | loses x rest hunread =>
    refine ⟨?_, fun _ h => absurd rfl h⟩
    rw [hunread]
    exact (List.sublist_cons_self x rest).append_left _
  | stopsReading =>
    exact ⟨(List.nil_sublist _).append_left _, fun h => absurd rfl h⟩
  | takes t rest =>
    obtain ⟨-, hreceived⟩ := Stdio.dispatch_inbox { s with inbox := rest } (trim t.bytes)
    have hunread : (Stdio.dispatch { s with inbox := rest } (trim t.bytes)).unread =
        s.unread := by
      rcases Stdio.dispatch_cases { s with inbox := rest } (trim t.bytes) with
        heq | ⟨id, work, heq⟩ | ⟨v, heq⟩ <;> rw [heq] <;> rfl
    rw [hreceived, hunread]
    exact ⟨List.Sublist.refl _, fun _ _ => rfl⟩
  | _ => exact ⟨List.Sublist.refl _, fun _ _ => rfl⟩

variable {stdin : Bytes} {events : List Stdio.Event} {s : Stdio}

/-- A run reads of the input what there is, in order. -/
theorem Stdio.received_sublist (hrun : runs Stdio.step (Stdio.start stdin) events = some s) :
    (s.received ++ s.unread).Sublist ((segments stdin).map reportOf) ∧
      ((∀ a ∈ events, a ≠ .readError ∧ a ≠ .read false) →
        s.received ++ s.unread = (segments stdin).map reportOf) := by
  have hstart : (Stdio.start stdin).received ++ (Stdio.start stdin).unread =
      (segments stdin).map reportOf := by
    show [] ++ readStdin (fun _ => true) 0 stdin = _
    rw [List.nil_append, readStdin_eq, delivered_of_takes fun _ => rfl]
  constructor
  · refine runs_invariant' (I := fun s =>
      (s.received ++ s.unread).Sublist ((segments stdin).map reportOf)) ?_
      (hstart ▸ List.Sublist.refl _) hrun
    intro t a t' ht hstep
    exact (Stdio.step_moves hstep).reads.1.trans ht
  · intro hkeeps
    refine runs_invariant (I := fun s => s.received ++ s.unread = (segments stdin).map reportOf)
      ?_ hstart (along_of_mem _ hkeeps) hrun
    intro t a t' ht ⟨hread, hlost⟩ hstep
    exact ((Stdio.step_moves hstep).reads.2 hread hlost).trans ht

/-- Each request is answered once. In every run, the numbers of the terminal events, of the tasks
that are there and of the lines that wait are together the numbers of what the reader has sent,
each as often; that is a part of the lines of stdin, in order. The events are printed in the order
in which they are sent, none left out, each on a line of its own. And when nothing is left to do,
stdout has the terminal events of all lines of stdin, and no others. -/
theorem requests_answered_once (hserde : SerdeJson.Lawful)
    (hrun : runs Stdio.step (Stdio.start stdin) events = some s) :
    (s.answered ++ s.pending ++ s.waiting).Perm s.asked ∧
    s.received.Sublist ((segments stdin).map reportOf) ∧
    s.printed <+: s.emitted ∧ (s.receiving = true → s.emitted = s.printed ++ s.channel) ∧
    segments s.stdout = s.printed.map (fun v => SerdeJson.render v ++ [LF]) ∧
    ((∀ a ∈ events, a ≠ .readError ∧ a ≠ .read false) → s.receiving = true → s.unread = [] →
      s.waiting = [] → s.pending = [] → s.channel = [] →
      (s.printed.filterMap terminalOf).Perm
        (((segments stdin).map reportOf).filterMap Sent.asks)) := by
  have htallied : s.Tallied := runs_invariant'
    (fun _ _ _ h hstep => (Stdio.step_moves hstep).tallied hserde h) (fun _ => rfl) hrun
  have hdelivers : s.Delivers := runs_invariant'
    (fun _ _ _ h hstep => (Stdio.step_moves hstep).delivers h)
    ⟨List.nil_prefix, fun _ => rfl, fun h => (by cases h)⟩ hrun
  have hperm : (s.answered ++ s.pending ++ s.waiting).Perm s.asked := by
    refine List.perm_iff_count.mpr fun id => ?_
    rw [List.count_append, List.count_append]
    exact htallied id
  obtain ⟨hsublist, hall⟩ := Stdio.received_sublist hrun
  refine ⟨hperm, (List.sublist_append_left _ _).trans hsublist, hdelivers.prefixed,
    hdelivers.whole, s.segments_stdout hserde, ?_⟩
  intro hkeeps hreceiving hunread hwaiting hpending hchannel
  have hreceived := hall hkeeps
  have hemitted := hdelivers.whole hreceiving
  rw [hunread, List.append_nil] at hreceived
  rw [hchannel, List.append_nil] at hemitted
  rw [hwaiting, hpending, List.append_nil, List.append_nil, Stdio.answered, Stdio.asked,
    hreceived, hemitted] at hperm
  exact hperm

/-! ## What holds a request up -/

omit [SerdeJson] in
/-- The steps that the daemon still has to take for a task. -/
def Errand.left (errand : Errand) : Nat :=
  match errand.stage with
  | .running => 1
  | .ended _ => 1
  | .reported => 0

omit [SerdeJson] in
/-- The steps of its own on the way of all lines to their answers. -/
def Stdio.left (s : Stdio) : Nat :=
  3 * s.unread.length + 2 * s.inbox.length + (s.errands.map Errand.left).sum

omit [SerdeJson] in
theorem sum_left_set {es : List Errand} {i : Nat} {e : Errand} (h : es[i]? = some e)
    (e' : Errand) : ((es.set i e').map Errand.left).sum + e.left =
      (es.map Errand.left).sum + e'.left := by
  obtain ⟨hi, rfl⟩ := List.getElem?_eq_some_iff.mp h
  obtain ⟨l₁, l₂, hl, -, hset⟩ :
      ∃ l₁ l₂, es = l₁ ++ es[i] :: l₂ ∧ l₁.length = i ∧ es.set i e' = l₁ ++ e' :: l₂ :=
    List.exists_of_set hi
  rw [hset]
  generalize es[i] = e at hl ⊢
  rw [hl]
  simp only [List.map_append, List.map_cons, List.sum_append, List.sum_cons]
  omega

/-- Each step of its own is one less, and no other step makes it longer. -/
theorem Stdio.Moves.left_le {s s' : Stdio} {a : Stdio.Event} (hmove : s.Moves a s') :
    s'.left + (if a.own then 1 else 0) ≤ s.left := by
  cases hmove with
  | hears up t rest hunread =>
    show 3 * rest.length + 2 * (s.inbox ++ [t]).length + (s.errands.map Errand.left).sum + 1 ≤ _
    simp only [Stdio.left, hunread, List.length_append, List.length_cons, List.length_nil]
    omega
  | complains id message rest hunread =>
    show 3 * rest.length + 2 * s.inbox.length + (s.errands.map Errand.left).sum + 1 ≤ _
    rw [Stdio.left, hunread, List.length_cons]
    omega
  | loses x rest hunread =>
    show 3 * rest.length + 2 * s.inbox.length + (s.errands.map Errand.left).sum + 1 ≤ _
    rw [Stdio.left, hunread, List.length_cons]
    omega
  | stopsReading =>
    show 3 * 0 + 2 * s.inbox.length + (s.errands.map Errand.left).sum + 0 ≤ _
    rw [Stdio.left]
    omega
  | takes t rest hinbox =>
    have hrest : Stdio.left { s with inbox := rest } + 2 = s.left := by
      show 3 * s.unread.length + 2 * rest.length + (s.errands.map Errand.left).sum + 2 = _
      rw [Stdio.left, hinbox, List.length_cons]
      omega
    rcases Stdio.dispatch_cases { s with inbox := rest } (trim t.bytes) with
      heq | ⟨id, work, heq⟩ | ⟨v, heq⟩
    · rw [heq, ← hrest]
      show _ + 1 ≤ _
      omega
    · rw [heq, ← hrest]
      show 3 * s.unread.length + 2 * rest.length +
        ((s.errands ++ [(⟨id, work, .running⟩ : Errand)]).map Errand.left).sum + 1 ≤
        3 * s.unread.length + 2 * rest.length + (s.errands.map Errand.left).sum + 2
      rw [List.map_append, List.sum_append]
      show _ + (_ + 1) + 1 ≤ _
      omega
    · rw [heq, ← hrest]
      show Stdio.left { s with inbox := rest } + 1 ≤ _
      omega
  | finishes i id work ending notified hjob =>
    have hsum := sum_left_set hjob ⟨id, work, .ended ending⟩
    show 3 * s.unread.length + 2 * s.inbox.length +
      ((s.errands.set i ⟨id, work, .ended ending⟩).map Errand.left).sum + 0 ≤ _
    change _ + 1 = _ + 1 at hsum
    rw [Stdio.left]
    omega
  | reports i id work ending hjob =>
    have hsum := sum_left_set hjob ⟨id, work, .reported⟩
    show 3 * s.unread.length + 2 * s.inbox.length +
      ((s.errands.set i ⟨id, work, .reported⟩).map Errand.left).sum + 1 ≤ _
    change _ + 1 = _ + 0 at hsum
    rw [Stdio.left]
    omega
  | turns a phase notified ha =>
    rw [ha]
    exact Nat.le_refl _
  | notes a phase v ha hv =>
    rw [ha]
    exact Nat.le_refl _
  | _ => exact Nat.le_refl _

/-- The steps of its own are as many as there were at most. -/
theorem Stdio.left_of_runs {u : Stdio} (hrun : runs Stdio.step u events = some s) :
    s.left + events.countP (fun a => a.own) ≤ u.left := by
  induction events generalizing u with
  | nil =>
    cases hrun
    exact Nat.le_refl _
  | cons a events ih =>
    obtain ⟨t, ht, hrest⟩ := runs_cons.mp hrun
    have hstep := (Stdio.step_moves ht).left_le
    have hlater := ih hrest
    rw [List.countP_cons]
    omega

omit [SerdeJson] in
/-- The number of a task whose work goes on. -/
def Errand.working (errand : Errand) : Option UInt64 :=
  match errand.stage with
  | .running => some errand.id
  | _ => none

omit [SerdeJson] in
/-- The numbers of the tasks whose work goes on. -/
def Stdio.working (s : Stdio) : List UInt64 := s.errands.filterMap Errand.working

/-- While the loop runs, what the reader can send and what waits in a channel is taken on. -/
theorem Stdio.own_of_looping (hloops : s.phase = .looping)
    (hleft : s.unread ≠ [] ∨ s.inbox ≠ [] ∨
      ∃ (i : Nat) (id : UInt64) (work : Work) (ending : Ending),
        s.errands[i]? = some ⟨id, work, .ended ending⟩) :
    ∃ a s', a.own = true ∧ s.step a = some s' := by
  have hexited : s.phase ≠ .exited := by
    rw [hloops]
    decide
  have hsome : ∃ a : Stdio.Event, a.own = true ∧ (s.step a).isSome = true := by
    rcases hleft with hunread | hinbox | ⟨i, id, work, ending, hjob⟩
    · obtain ⟨x, rest, hunread⟩ := List.exists_cons_of_ne_nil hunread
      refine ⟨.read true, rfl, ?_⟩
      rw [Stdio.step, hunread]
      cases x with
      | line t =>
        dsimp only
        rw [if_neg hexited]
        rfl
      | error id message =>
        dsimp only
        rw [if_neg hexited, if_pos rfl]
        rfl
    · obtain ⟨t, rest, hinbox⟩ := List.exists_cons_of_ne_nil hinbox
      refine ⟨.take, rfl, ?_⟩
      rw [Stdio.step, hinbox]
      dsimp only
      rw [if_pos hloops]
      rfl
    · refine ⟨.report i, rfl, ?_⟩
      rw [Stdio.step, hjob]
      dsimp only
      rw [if_neg hexited]
      rfl
  obtain ⟨a, ha, hstep⟩ := hsome
  obtain ⟨s', hs'⟩ := Option.isSome_iff_exists.mp hstep
  exact ⟨a, s', ha, hs'⟩

/-- A task goes on with its work until that ends, whatever else happens. -/
theorem Stdio.Moves.running {s s' : Stdio} {a : Stdio.Event} (hmove : s.Moves a s') {i : Nat}
    {id : UInt64} {work : Work} (hjob : s.errands[i]? = some ⟨id, work, .running⟩)
    (ha : ∀ ending, a ≠ .finish i ending) : s'.errands[i]? = some ⟨id, work, .running⟩ := by
  cases hmove with
  | takes t rest hinbox =>
    rcases Stdio.dispatch_cases { s with inbox := rest } (trim t.bytes) with
      heq | ⟨id', work', heq⟩ | ⟨v, heq⟩
    · rw [heq]
      exact hjob
    · rw [heq]
      show (s.errands ++ [_])[i]? = _
      rw [List.getElem?_append_left (List.getElem?_eq_some_iff.mp hjob).1]
      exact hjob
    · rw [heq]
      exact hjob
  | finishes j id' work' ending notified hjob' =>
    have hne : j ≠ i := by
      rintro rfl
      exact ha ending rfl
    show (s.errands.set j _)[i]? = _
    rw [List.getElem?_set_ne hne]
    exact hjob
  | reports j id' work' ending hjob' =>
    have hne : j ≠ i := by
      rintro rfl
      rw [hjob] at hjob'
      cases hjob'
    show (s.errands.set j _)[i]? = _
    rw [List.getElem?_set_ne hne]
    exact hjob
  | _ => exact hjob

/-- Only its own work holds a request up. The daemon takes at most three steps of its own for each
line. In whatever state it is, while the loop runs, one of these can be taken, or all of stdin is
read and each number has as many answers and works that go on as were asked. A work that goes on can
end as it may at any later time, whatever all the others have done. -/
theorem held_up_by_own_work_only (hserde : SerdeJson.Lawful)
    (hrun : runs Stdio.step (Stdio.start stdin) events = some s) :
    events.countP (fun a => a.own) ≤ 3 * (segments stdin).length ∧
    (s.phase = .looping → (∃ a s', a.own = true ∧ s.step a = some s') ∨
      s.unread = [] ∧ s.inbox = [] ∧ (s.answered ++ s.working).Perm s.asked) ∧
    ∀ i id work, s.errands[i]? = some ⟨id, work, .running⟩ → ∀ later s',
      runs Stdio.step s later = some s' → (∀ ending, .finish i ending ∉ later) →
      s'.phase ≠ .exited → ∀ ending, work.mayEnd ending = true →
        ∃ t, s'.step (.finish i ending) = some t := by
  have hstart : (Stdio.start stdin).left = 3 * (segments stdin).length := by
    show 3 * (readStdin (fun _ => true) 0 stdin).length + 0 + 0 = _
    rw [readStdin_eq, delivered_of_takes fun _ => rfl, List.length_map]
    rfl
  refine ⟨?_, fun hloops => ?_, fun i id work hjob later s' hlater hno hexited ending hmay => ?_⟩
  · have hbound := Stdio.left_of_runs hrun
    omega
  · by_cases hleft : s.unread ≠ [] ∨ s.inbox ≠ [] ∨
      ∃ (i : Nat) (id : UInt64) (work : Work) (ending : Ending),
        s.errands[i]? = some ⟨id, work, .ended ending⟩
    · exact .inl (Stdio.own_of_looping hloops hleft)
    push Not at hleft
    obtain ⟨hunread, hinbox, hended⟩ := hleft
    have hworking : s.pending = s.working := by
      refine List.filterMap_congr fun errand hmem => ?_
      obtain ⟨i, hi⟩ := List.getElem?_of_mem hmem
      obtain ⟨id, work, stage⟩ := errand
      cases stage with
      | running => rfl
      | ended ending => exact absurd hi (hended i id work ending)
      | reported => rfl
    have htallied : s.Tallied := runs_invariant'
      (fun _ _ _ h hstep => (Stdio.step_moves hstep).tallied hserde h) (fun _ => rfl) hrun
    refine .inr ⟨hunread, hinbox, List.perm_iff_count.mpr fun id => ?_⟩
    have hid := htallied id
    rw [hworking, Stdio.waiting, hinbox] at hid
    rw [List.count_append]
    exact hid
  · have hkeeps : ∀ (t : Stdio) (a : Stdio.Event) (t' : Stdio),
        t.errands[i]? = some ⟨id, work, .running⟩ → (∀ ending, a ≠ .finish i ending) →
        t.step a = some t' → t'.errands[i]? = some ⟨id, work, .running⟩ :=
      fun t a t' ht ha hstep => (Stdio.step_moves hstep).running ht ha
    have hothers : ∀ a ∈ later, ∀ ending, a ≠ .finish i ending := by
      rintro a ha ending rfl
      exact hno ending ha
    have hgoes := runs_invariant hkeeps hjob (along_of_mem s hothers) hlater
    rw [Stdio.step, hgoes]
    dsimp only
    rw [if_pos ⟨hexited, hmay⟩]
    exact ⟨_, rfl⟩

end

/-! ## Two lines -/

/-- A request for the status. -/
def statusLine : Bytes := ascii "\x7b\"id\":7,\"cmd\":\"status\"\x7d"

/-- A value that is neither an object nor a list of values, and a string of plain letters. -/
def flatValue : Json → Bytes
  | .null => ascii "null"
  | .bool b => ascii (if b then "true" else "false")
  | .number (.unsigned n) => decimal n.toNat
  | .number (.other _) => ascii "0"
  | .string s => 34 :: ascii s ++ [34]
  | .array _ => ascii "[]"
  | .object _ => ascii "\x7b\x7d"

/-- An object of such values. -/
def flatObject : Json → Bytes
  | .object entries =>
    let fields := entries.map fun e => 34 :: ascii e.1 ++ 34 :: 58 :: flatValue e.2
    123 :: (fields.intersperse [44]).flatten ++ [125]
  | v => flatValue v

/-- A reader that knows that request, and a writer of such objects. -/
abbrev statusSerde : SerdeJson where
  value line :=
    if line = statusLine then some (.object [("id", .u64 7), ("cmd", .string "status")]) else none
  request line := if line = statusLine then .ok ⟨7, .status⟩ else .error "expected value"
  render v := (flatObject v).filter fun b => b ≠ LF

theorem statusSerde_lawful : @SerdeJson.Lawful statusSerde := by
  let _ := statusSerde
  refine ⟨fun line req h => ?_, fun v hm => ?_⟩
  · have h : (if line = statusLine then Except.ok ⟨7, .status⟩ else .error "expected value") =
      Except.ok req := h
    split at h
    · next hline =>
      cases h
      exact ⟨_, if_pos hline, rfl⟩
    · cases h
  · exact of_decide_eq_true (List.mem_filter.mp hm).2 rfl

/-- The request, and a line that is none. -/
def twoLines : Bytes := statusLine ++ LF :: ascii "x"

/-- What the reader makes of them. -/
theorem start_twoLines :
    Stdio.start twoLines = { Stdio.start [] with
      unread := [.line ⟨statusLine ++ [LF], by decide⟩, .line ⟨ascii "x", by decide⟩] } := by
  have hread : readStdin (fun _ => true) 0 twoLines =
      [.line ⟨statusLine ++ [LF], by decide⟩, .line ⟨ascii "x", by decide⟩] := by
    rw [readStdin_eq, delivered_of_takes fun _ => rfl]
    decide +kernel
  rw [Stdio.start, hread]
  rfl

/-- What becomes of them: the second line has its answer first. -/
def stdioOfTwo : List Stdio.Event :=
  [.ready "0.1.8" "p" [], .read true, .read true, .take, .take,
    .finish 0 (.done (.status 0 "p" [] [] 0 0 0)), .report 0, .write true, .write true, .write true]

theorem exists_stdioOfTwo :
    let _ := statusSerde
    ∃ s, runs Stdio.step (Stdio.start twoLines) stdioOfTwo = some s ∧ s.receiving = true ∧
      s.unread = [] ∧ s.waiting = [] ∧ s.pending = [] ∧ s.channel = [] := by
  intro _
  have hview : (runs Stdio.step (Stdio.start twoLines) stdioOfTwo).map (fun s =>
      (s.receiving, s.unread.length, s.waiting, s.pending, s.channel.length)) =
      some (true, 0, [], [], 0) := by
    rw [start_twoLines]
    decide +kernel
  obtain ⟨s, hrun, hend⟩ := Option.map_eq_some_iff.mp hview
  simp only [Prod.mk.injEq, List.length_eq_zero_iff] at hend
  exact ⟨s, hrun, hend⟩

/-- Each of them is answered once. -/
theorem two_lines_answered_once :
    let _ := statusSerde
    ∃ s, runs Stdio.step (Stdio.start twoLines) stdioOfTwo = some s ∧
      (s.printed.filterMap terminalOf).Perm [7, 0] := by
  intro _
  obtain ⟨s, hrun, hreceiving, hunread, hwaiting, hpending, hchannel⟩ := exists_stdioOfTwo
  have hkeeps : ∀ a ∈ stdioOfTwo, a ≠ .readError ∧ a ≠ .read false := by simp [stdioOfTwo]
  have hperm := (requests_answered_once statusSerde_lawful hrun).2.2.2.2.2 hkeeps hreceiving
    hunread hwaiting hpending hchannel
  have hasks : ((segments twoLines).map reportOf).filterMap Sent.asks = [7, 0] := by decide +kernel
  rw [hasks] at hperm
  exact ⟨s, hrun, hperm⟩

/-- A status that is not told holds up nothing else: the other line has its answer, which is written,
and the status can still be told. -/
theorem status_holds_up_nothing :
    let _ := statusSerde
    ∃ s s', runs Stdio.step (Stdio.start twoLines) (stdioOfTwo.take 5) = some s ∧
      (s.answered ++ s.working).Perm [7, 0] ∧
      runs Stdio.step s [.write true, .write true] = some s' ∧
      ∃ t, s'.step (.finish 0 (.failed "no network")) = some t := by
  intro _
  have hview : (runs Stdio.step (Stdio.start twoLines) (stdioOfTwo.take 5)).map (fun s =>
      (decide (s.phase = .looping), s.unread.length, s.inbox.length, s.asked,
        s.errands.map fun e => e.working.isSome && e.work.mayEnd (.failed "no network"))) =
      some (true, 0, 0, [7, 0], [true]) := by
    rw [start_twoLines]
    decide +kernel
  have hwrites : ((runs Stdio.step (Stdio.start twoLines) (stdioOfTwo.take 5)).bind fun s =>
      runs Stdio.step s [.write true, .write true]).map (fun s => decide (s.phase = .looping)) =
      some true := by
    rw [start_twoLines]
    decide +kernel
  obtain ⟨s, hrun, hend⟩ := Option.map_eq_some_iff.mp hview
  simp only [Prod.mk.injEq, List.length_eq_zero_iff, decide_eq_true_eq] at hend
  obtain ⟨hloops, hunread, hinbox, hasked, hworking⟩ := hend
  rw [hrun, Option.bind_some] at hwrites
  obtain ⟨s', hlater, hphase⟩ := Option.map_eq_some_iff.mp hwrites
  have hlooping : s'.phase = .looping := of_decide_eq_true hphase
  obtain ⟨-, hheld, hgoes⟩ := held_up_by_own_work_only statusSerde_lawful hrun
  obtain ⟨⟨id, work, stage⟩, herrands, hmay⟩ := List.map_eq_singleton_iff.mp hworking
  obtain ⟨hstage, hmay⟩ := Bool.and_eq_true_iff.mp hmay
  obtain rfl : stage = .running := by
    cases stage with
    | running => rfl
    | _ => cases hstage
  refine ⟨s, s', hrun, ?_, hlater, ?_⟩
  · rcases hheld hloops with ⟨a, t, ha, hstep⟩ | ⟨-, -, hperm⟩
    · cases a with
      | read up =>
        rw [Stdio.step, hunread] at hstep
        cases hstep
      | take =>
        rw [Stdio.step, hinbox] at hstep
        cases hstep
      | report i =>
        cases Stdio.step_moves hstep with
        | reports i id' work' ending hjob =>
          have hmem := List.mem_of_getElem? hjob
          rw [herrands, List.mem_singleton] at hmem
          cases hmem
        | turns _ _ _ ha => cases ha
        | notes _ _ _ ha => cases ha
      | _ => cases ha
    · rwa [hasked] at hperm
  · refine hgoes 0 id work (by rw [herrands]; rfl) _ s' hlater (by simp) ?_ _ hmay
    rw [hlooping]
    decide

end Np2ptp
