import Np2ptp.Net.Binding
import Np2ptp.Node.Status
import Np2ptp.Store.ExportProgress

/-!
# The progress of a fetch

The progress events of `run_fetch`. The download and the export report to a `progress_sender` each,
which may leave out reports that come soon after another but never one that says that everything is
done. A flag keeps the attempts to download from announcing completion more than once; the export
does not know of it. So completion is announced twice exactly when an attempt announces it and the
export does too (`fetch_completes_once_iff`).
-/

namespace Np2ptp

open Lib

/-! ## Progress events -/

/-- `PROGRESS_INTERVAL`, in nanoseconds. -/
def PROGRESS_INTERVAL : Nat := 100 * 10 ^ 6

/-- What `event_progress` makes an event of. -/
structure ProgressEvent where
  id : UInt64
  op : String
  done : Nat
  total : Nat
  deriving DecidableEq

/-- The event announces completion. -/
def ProgressEvent.Completes (ev : ProgressEvent) : Prop := IsComplete (ev.done, ev.total)

instance : DecidablePred ProgressEvent.Completes :=
  fun ev => inferInstanceAs (Decidable (IsComplete (ev.done, ev.total)))

/-- A call of a progress callback, and what the clock shows then. -/
structure Report where
  now : Nat
  done : Nat
  total : Nat

/-- The report says that everything is done. -/
def Report.Completes (r : Report) : Prop := IsComplete (r.done, r.total)

instance : DecidablePred Report.Completes :=
  fun r => inferInstanceAs (Decidable (IsComplete (r.done, r.total)))

/-- The closure that `progress_sender` returns, and what it has sent. -/
structure ProgressSender where
  id : UInt64
  op : String
  last : Option Nat
  sent : List ProgressEvent

/-- `progress_sender`. -/
def progressSender (id : UInt64) (op : String) : ProgressSender := ⟨id, op, none, []⟩

/-- An update may go out again. -/
def ProgressSender.due (prog : ProgressSender) (now : Nat) : Bool :=
  match prog.last with
  | none => true
  | some t => decide (PROGRESS_INTERVAL ≤ now - t)

/-- The closure is called. -/
def ProgressSender.call (prog : ProgressSender) (r : Report) : ProgressSender :=
  if r.total ≤ r.done ∨ prog.due r.now then
    { prog with
      last := some r.now
      sent := prog.sent ++ [⟨prog.id, prog.op, r.done, r.total⟩] }
  else prog

/-- How often completion is announced. -/
def completions (events : List ProgressEvent) : Nat := events.countP fun ev => ev.Completes

/-- The throttle lets completion through, and makes none up. -/
theorem ProgressSender.completions_call (prog : ProgressSender) (r : Report) :
    completions (prog.call r).sent =
      completions prog.sent + if r.Completes then 1 else 0 := by
  unfold ProgressSender.call
  split
  · rw [completions, List.countP_append, List.countP_singleton]
    simp only [decide_eq_true_eq]
    rfl
  · next hsent =>
    have hnone : ¬ r.Completes := fun h => hsent (.inl (le_of_eq h.1.symm))
    rw [if_neg hnone, Nat.add_zero]

theorem ProgressSender.completions_foldl (prog : ProgressSender) (reports : List Report) :
    completions (reports.foldl ProgressSender.call prog).sent =
      completions prog.sent + reports.countP fun r => r.Completes := by
  induction reports generalizing prog with
  | nil => rfl
  | cons r reports ih =>
    rw [List.foldl_cons, ih, ProgressSender.completions_call, List.countP_cons]
    simp only [decide_eq_true_eq]
    omega

/-- The clock has no part in whether a report announces completion. -/
theorem countP_mapIdx_completes (clock : Nat → Nat) (calls : List (Nat × Nat)) :
    (calls.mapIdx fun i call => (⟨clock i, call.1, call.2⟩ : Report)).countP
      (fun r => r.Completes) = calls.countP fun call => IsComplete call := by
  induction calls generalizing clock with
  | nil => rfl
  | cons call calls ih =>
    rw [List.mapIdx_cons, List.countP_cons, List.countP_cons, ih fun i => clock (i + 1)]
    rfl

/-! ## The download -/

/-- What the callback of the download keeps: the closure, and whether completion was sent. -/
structure DownloadProgress where
  prog : ProgressSender
  sentComplete : Bool

/-- The callback of the download. -/
def DownloadProgress.call (st : DownloadProgress) (r : Report) : DownloadProgress :=
  if r.done = r.total ∧ 0 < r.total then
    if st.sentComplete then st else { prog := st.prog.call r, sentComplete := true }
  else { st with prog := st.prog.call r }

/-- An attempt to download: when it begins, what it reports and what it returns. -/
structure FetchAttempt where
  now : Nat
  reports : List Report
  result : Except NetError Manifest

/-- How long the attempts go on, in nanoseconds. -/
def RETRY_BUDGET : Nat := 20 * 10 ^ 9

/-- The loop of `run_fetch` from the attempt `k` on, when `left` attempts are left. -/
def fetchLoop (deadline : Nat) (attempts : Nat → FetchAttempt) :
    Nat → Nat → DownloadProgress → Option Manifest × DownloadProgress
  | 0, _, st => (none, st)
  | left + 1, k, st =>
    if 0 < k ∧ deadline ≤ (attempts k).now then (none, st)
    else
      let st := (attempts k).reports.foldl DownloadProgress.call st
      match (attempts k).result with
      | .ok m => (some m, st)
      | .error _ => fetchLoop deadline attempts left (k + 1) st

/-- The attempts that are made. -/
def attemptsMade (deadline : Nat) (attempts : Nat → FetchAttempt) : Nat → Nat → List FetchAttempt
  | 0, _ => []
  | left + 1, k =>
    if 0 < k ∧ deadline ≤ (attempts k).now then []
    else attempts k :: match (attempts k).result with
      | .ok _ => []
      | .error _ => attemptsMade deadline attempts left (k + 1)

/-- Completion was sent as often as the flag says. -/
def DownloadProgress.Flagged (st : DownloadProgress) : Prop :=
  completions st.prog.sent = if st.sentComplete then 1 else 0

/-- The flag keeps the download from announcing completion twice. -/
theorem DownloadProgress.flagged_call {st : DownloadProgress} (h : st.Flagged) (r : Report) :
    (st.call r).Flagged ∧
      ((st.call r).sentComplete = true ↔ st.sentComplete = true ∨ r.Completes) := by
  have hcall := st.prog.completions_call r
  rw [show completions st.prog.sent = _ from h] at hcall
  by_cases hr : r.done = r.total ∧ 0 < r.total
  · have hcompletes : r.Completes := hr
    rw [DownloadProgress.call, if_pos hr]
    by_cases hflag : st.sentComplete = true
    · rw [if_pos hflag]
      exact ⟨h, by simp [hflag]⟩
    · rw [if_neg hflag] at hcall ⊢
      rw [if_pos hcompletes] at hcall
      exact ⟨hcall, by simp [hcompletes]⟩
  · have hnone : ¬ r.Completes := hr
    rw [if_neg hnone, Nat.add_zero] at hcall
    rw [DownloadProgress.call, if_neg hr]
    exact ⟨hcall, by simp [hnone]⟩

theorem DownloadProgress.flagged_foldl (reports : List Report) {st : DownloadProgress}
    (h : st.Flagged) : (reports.foldl DownloadProgress.call st).Flagged ∧
      ((reports.foldl DownloadProgress.call st).sentComplete = true ↔
        st.sentComplete = true ∨ ∃ r ∈ reports, r.Completes) := by
  induction reports generalizing st with
  | nil => exact ⟨h, by simp⟩
  | cons r reports ih =>
    obtain ⟨hcall, hflag⟩ := DownloadProgress.flagged_call h r
    obtain ⟨hrest, hflags⟩ := ih hcall
    refine ⟨hrest, ?_⟩
    rw [List.foldl_cons, hflags, hflag, List.exists_mem_cons_iff, or_assoc]

/-- What the loop does: the callback gets the reports of all the attempts that are made, one after
the other, and the manifest is what the last of them returns. -/
theorem fetchLoop_eq (deadline : Nat) (attempts : Nat → FetchAttempt) (left k : Nat)
    (st : DownloadProgress) : fetchLoop deadline attempts left k st =
      ((attemptsMade deadline attempts left k).getLast?.bind fun a => a.result.toOption,
        ((attemptsMade deadline attempts left k).flatMap FetchAttempt.reports).foldl
          DownloadProgress.call st) := by
  induction left generalizing k st with
  | zero => rfl
  | succ left ih =>
    rw [fetchLoop, attemptsMade]
    split
    · rfl
    · dsimp only
      rw [List.flatMap_cons, List.foldl_append]
      cases hresult : (attempts k).result with
      | ok m => simp [hresult, Except.toOption]
      | error e =>
        dsimp only
        rw [ih]
        cases hmade : attemptsMade deadline attempts left (k + 1) with
        | nil => simp [hresult, Except.toOption]
        | cons a made => simp [List.getLast?_cons_cons]

/-! ## What a download reports -/

section

variable {Peer : Type}

/-- The last report of a download in progress is what it has done, and without a failure what is
pending is all that is left. -/
structure Fetching.Reported (progress : List (Nat × Nat)) (f : Fetching Peer) : Prop where
  last : progress.getLast? = some (f.done, f.manifest.chunks.length)
  counted : f.firstFailure = none → f.done + f.pending.length = f.manifest.chunks.length

/-- A download that has succeeded has reported that everything is done. -/
def Phase.Reported (progress : List (Nat × Nat)) : Phase Peer → Prop
  | .manifest _ => True
  | .fetching f => f.Reported progress
  | .returned (.ok m) _ => progress.getLast? = some (m.chunks.length, m.chunks.length)
  | .returned (.error _) _ => True

theorem Fetching.Reported.poll {progress : List (Nat × Nat)} {f : Fetching Peer}
    (h : f.Reported progress) : f.poll.Reported progress := by
  rcases Fetching.poll_cases f with ⟨he, -⟩ | ⟨hnone, ⟨e, -, he⟩ | ⟨hf, he⟩⟩
  · rw [he]
    refine ⟨h.last, ?_⟩
    rw [Fetching.pending_refill]
    exact h.counted
  · rw [he]
    trivial
  · have hall := h.counted hf
    rw [hnone, List.length_nil, Nat.add_zero] at hall
    have hlast := h.last
    rw [hall] at hlast
    rw [he]
    exact hlast

theorem Store.length_missing_le (d : Disk) (chunks : List ChunkRef) (i : Nat) (s : Store) :
    (Store.missing d s i chunks).1.length ≤ chunks.length := by
  induction chunks generalizing i s with
  | nil => simp [Store.missing]
  | cons c chunks ih =>
    have hrest := ih (i + 1) (s.has d c.hash).2
    rw [Store.missing]
    dsimp only
    split
    · exact hrest.trans (Nat.le_succ _)
    · exact Nat.succ_le_succ hrest

theorem Download.begin_reported (st : Download Peer) (m : Manifest) :
    (st.begin m).phase.Reported (st.begin m).progress := by
  refine Fetching.Reported.poll ⟨List.getLast?_concat, fun _ => ?_⟩
  have hle := Store.length_missing_le st.disk m.chunks 0 st.store
  have hlength : (fetchesOf (Store.missing st.disk st.store 0 m.chunks).1).length =
      (Store.missing st.disk st.store 0 m.chunks).1.length := List.length_mapIdx
  show _ + List.length ([] ++ fetchesOf _) = _
  rw [List.nil_append, hlength]
  dsimp only
  omega

variable [Blake3] [DecidableEq Peer]

/-- One answer keeps the reports up to date. -/
theorem Download.step_reported {root : Hash} {providers : List Peer} (st : Download Peer)
    (a : Answered) (st' : Download Peer)
    (h : st.phase.Fits providers ∧ st.phase.Reported st.progress)
    (hstep : st.step root providers a = some st') :
    st'.phase.Fits providers ∧ st'.phase.Reported st'.progress := by
  refine ⟨Download.step_fits st a st' h.1 hstep, ?_⟩
  obtain ⟨hfits, hreported⟩ := h
  cases Download.steps_of_step hstep with
  | accepted hp hm => exact st.begin_reported _
  | refused hp he hrest => trivial
  | exhausted hp he => trivial
  | @next slot a f t e hp ht hno hk =>
    rw [hp] at hreported hfits
    obtain ⟨hslot, hperm⟩ := ht.perm hfits.2.distinct
    have hperm' : (f.replace { t with k := t.k + 1, lastErr := e }).pending.Perm
        (_ :: (f.without slot).pending) := ht.replace_perm hfits.2.distinct hslot
    refine ⟨hreported.last, fun hnone => ?_⟩
    have hcount := hreported.counted hnone
    rw [hperm.length_eq, List.length_cons] at hcount
    rw [hperm'.length_eq, List.length_cons]
    exact hcount
  | @failed slot a f t e hp ht hno hk =>
    rw [hp] at hreported
    have hfailed : ((f.without slot).fail e).firstFailure ≠ none := by
      show f.firstFailure.or (some e) ≠ none
      cases f.firstFailure <;> simp
    exact Fetching.Reported.poll ⟨hreported.last, fun hnone => absurd hnone hfailed⟩
  | unwritten hp ht hb hok hput => trivial
  | @stored slot a f t bytes r d' s' hp ht hb hok hput =>
    rw [hp] at hreported hfits
    refine Fetching.Reported.poll ⟨List.getLast?_concat, fun hnone => ?_⟩
    have hcount := hreported.counted hnone
    rw [(ht.perm hfits.2.distinct).2.length_eq, List.length_cons] at hcount
    show f.done + 1 + (f.without slot).pending.length = f.manifest.chunks.length
    omega

/-- A download that succeeds has reported at last that everything is done, whatever the store and
the providers do. -/
theorem Download.progress_of_ok {root : Hash} {providers : List Peer} {d : Disk} {s : Store}
    {answers : List Answered} {st : Download Peer} {m : Manifest}
    (hrun : runs (Download.step root providers) (.start providers d s) answers = some st)
    (hok : st.result = some (.ok m)) :
    st.progress.getLast? = some (m.chunks.length, m.chunks.length) := by
  have hstart : (Download.start providers d s).phase.Reported
      (Download.start providers d s).progress := by
    show (if providers = [] then Phase.returned (.error .noProviders) ∅ else
      .manifest providers).Reported _
    split
    · trivial
    · trivial
  have hend := (runs_invariant' Download.step_reported
    ⟨Download.start_fits providers d s, hstart⟩ hrun).2
  obtain ⟨receipts, hp⟩ := Download.phase_of_result hok
  rw [hp] at hend
  exact hend

end

/-! ## The whole fetch -/

/-- What happens to a fetch that has found providers. -/
structure FetchEnv where
  /-- What the clock shows before the first attempt. -/
  started : Nat
  attempts : Nat → FetchAttempt
  /-- The store that the export finds. -/
  disk : Disk
  store : Store
  /-- How many chunks are written before an I/O error, if there is one. -/
  breaksAfter : Option Nat
  /-- What the clock shows at each report of the export. -/
  clock : Nat → Nat

/-- The attempts that the fetch makes. -/
def FetchEnv.made (env : FetchEnv) : List FetchAttempt :=
  attemptsMade (env.started + RETRY_BUDGET) env.attempts Daemon.FETCH_ATTEMPTS 0

/-- The manifest that the last of them returns. -/
def FetchEnv.fetched (env : FetchEnv) : Option Manifest :=
  env.made.getLast?.bind fun a => a.result.toOption

/-- The download of `run_fetch`. -/
def FetchEnv.download (env : FetchEnv) (id : UInt64) : Option Manifest × DownloadProgress :=
  fetchLoop (env.started + RETRY_BUDGET) env.attempts Daemon.FETCH_ATTEMPTS 0
    ⟨progressSender id "fetch", false⟩

section

variable [Blake3]

/-- The calls of `on_progress` in `write_output_to`: one for each chunk that is written. -/
def FetchEnv.exportCalls (env : FetchEnv) (fs : Fs) (m : Manifest) : List (Nat × Nat) :=
  let calls :=
    if Daemon.looksLikeTree m then env.store.exportTreeCalls env.disk m
    else if fs.creates then env.store.exportToCalls env.disk m else []
  match env.breaksAfter with
  | none => calls
  | some n => calls.take n

/-- The progress events of the export. -/
def FetchEnv.exportEvents (env : FetchEnv) (fs : Fs) (id : UInt64) (m : Manifest) :
    List ProgressEvent :=
  let reports := (env.exportCalls fs m).mapIdx fun i call => ⟨env.clock i, call.1, call.2⟩
  (reports.foldl ProgressSender.call (progressSender id "fetch")).sent

/-- The progress events of `run_fetch`. -/
def fetchEvents {Peer : Type} (fs : Fs) (id : UInt64) (uri : Bytes) (providers : List Peer)
    (env : FetchEnv) : List ProgressEvent :=
  match Daemon.fetchRoot fs uri with
  | .error _ => []
  | .ok _ =>
    if providers.isEmpty then []
    else
      (env.download id).2.prog.sent ++ match (env.download id).1 with
        | none => []
        | some m => env.exportEvents fs id m

/-- The export announces completion once, if it writes as many chunks as the manifest lists. -/
theorem FetchEnv.completions_export (env : FetchEnv) (fs : Fs) (id : UInt64) (m : Manifest) :
    completions (env.exportEvents fs id m) =
      if 0 < m.chunks.length ∧ m.chunks.length ≤ (env.exportCalls fs m).length then 1 else 0 := by
  have hcounts : Counts m.chunks.length 0 (env.exportCalls fs m) := by
    have hall : Counts m.chunks.length 0
        (if Daemon.looksLikeTree m then env.store.exportTreeCalls env.disk m
          else if fs.creates then env.store.exportToCalls env.disk m else []) := by
      split
      · exact env.store.exportTreeCalls_counts env.disk m
      · split
        · exact env.store.exportToCalls_counts env.disk m
        · trivial
    rw [FetchEnv.exportCalls]
    cases env.breaksAfter with
    | none => exact hall
    | some n => exact hall.take n
  rw [FetchEnv.exportEvents, ProgressSender.completions_foldl, countP_mapIdx_completes,
    hcounts.countP_isComplete, Nat.zero_add]
  exact Nat.zero_add _

omit [Blake3] in
/-- The download announces completion once, if one of the attempts that are made does. -/
theorem FetchEnv.completions_download (env : FetchEnv) (id : UInt64) :
    completions (env.download id).2.prog.sent =
      if ∃ a ∈ env.made, ∃ r ∈ a.reports, r.Completes then 1 else 0 := by
  have hstart : DownloadProgress.Flagged ⟨progressSender id "fetch", false⟩ := rfl
  obtain ⟨hflagged, hflag⟩ :=
    DownloadProgress.flagged_foldl (env.made.flatMap FetchAttempt.reports) hstart
  have hreported : (∃ r ∈ env.made.flatMap FetchAttempt.reports, r.Completes) ↔
      ∃ a ∈ env.made, ∃ r ∈ a.reports, r.Completes := by
    simp only [List.mem_flatMap]
    tauto
  rw [FetchEnv.download, fetchLoop_eq]
  refine Eq.trans hflagged (if_congr ?_ rfl rfl)
  exact (hflag.trans (by simp)).trans hreported

/-- Both phases together. -/
theorem FetchEnv.completions_le_one_iff (env : FetchEnv) (fs : Fs) (id : UInt64) :
    completions ((env.download id).2.prog.sent ++ match (env.download id).1 with
      | none => []
      | some m => env.exportEvents fs id m) ≤ 1 ↔
    ¬((∃ a ∈ env.made, ∃ r ∈ a.reports, r.Completes) ∧
      ∃ m, env.fetched = some m ∧ 0 < m.chunks.length ∧
        m.chunks.length ≤ (env.exportCalls fs m).length) := by
  have hfetched : (env.download id).1 = env.fetched := by
    rw [FetchEnv.download, fetchLoop_eq]
    rfl
  have hdownload := env.completions_download id
  rw [hfetched]
  cases hm : env.fetched with
  | none =>
    dsimp only
    rw [List.append_nil, hdownload]
    refine ⟨fun _ h => ?_, fun _ => ?_⟩
    · obtain ⟨-, m, hm, -⟩ := h
      cases hm
    · split <;> omega
  | some m =>
    have hboth : completions ((env.download id).2.prog.sent ++ env.exportEvents fs id m) =
        completions (env.download id).2.prog.sent + completions (env.exportEvents fs id m) :=
      List.countP_append
    dsimp only
    rw [hboth, hdownload, env.completions_export fs id m]
    simp only [Option.some.injEq, exists_eq_left']
    by_cases hreport : ∃ a ∈ env.made, ∃ r ∈ a.reports, r.Completes
    · by_cases hexport : 0 < m.chunks.length ∧ m.chunks.length ≤ (env.exportCalls fs m).length
      · rw [if_pos hreport, if_pos hexport]
        exact ⟨fun h => absurd h (by omega), fun h => absurd ⟨hreport, hexport⟩ h⟩
      · rw [if_pos hreport, if_neg hexport]
        exact ⟨fun _ h => hexport h.2, fun _ => le_refl 1⟩
    · rw [if_neg hreport]
      refine ⟨fun _ h => hreport h.1, fun _ => ?_⟩
      split <;> omega

/-- Completion is announced at most once if and only if it is not announced by an attempt to
download and by the export both: no attempt that is made reports that everything is done, or the
download fails, or its manifest lists no chunks, or the export stops before it has written as many
chunks as the manifest lists. -/
theorem fetch_completes_once_iff {Peer : Type} (fs : Fs) (id : UInt64) (uri : Bytes)
    (providers : List Peer) (env : FetchEnv) :
    completions (fetchEvents fs id uri providers env) ≤ 1 ↔
      ¬((∃ root, Daemon.fetchRoot fs uri = .ok root) ∧ providers ≠ [] ∧
        (∃ a ∈ env.made, ∃ r ∈ a.reports, r.Completes) ∧
        ∃ m, env.fetched = some m ∧ 0 < m.chunks.length ∧
          m.chunks.length ≤ (env.exportCalls fs m).length) := by
  unfold fetchEvents
  cases hroot : Daemon.fetchRoot fs uri with
  | error e => simp [completions]
  | ok root =>
    cases providers with
    | nil => simp [completions]
    | cons p providers =>
      have hcould : (∃ root', (Except.ok root : Except DaemonError Hash) = .ok root') ∧
          p :: providers ≠ [] := ⟨⟨root, rfl⟩, List.cons_ne_nil p providers⟩
      dsimp only
      rw [if_neg (by simp), env.completions_le_one_iff fs id, ← and_assoc, and_iff_right hcould]

end

/-! ## A fetch that downloads -/

section

variable [Blake3] {Peer : Type} [DecidableEq Peer]

/-- The attempt is a download from this store: what it reports, and what it returns. -/
def FetchAttempt.Downloads (root : Hash) (providers : List Peer) (d : Disk) (s : Store)
    (a : FetchAttempt) : Prop :=
  ∃ answers st, runs (Download.step root providers) (.start providers d s) answers = some st ∧
    st.result = some a.result ∧ a.reports.map (fun r => (r.done, r.total)) = st.progress

/-- A download that succeeds announces completion, if there is anything to complete. -/
theorem FetchAttempt.Downloads.completes {root : Hash} {providers : List Peer} {d : Disk}
    {s : Store} {a : FetchAttempt} {m : Manifest} (h : a.Downloads root providers d s)
    (hok : a.result = .ok m) (hchunks : 0 < m.chunks.length) : ∃ r ∈ a.reports, r.Completes := by
  obtain ⟨answers, st, hrun, hresult, hreports⟩ := h
  rw [hok] at hresult
  have hlast := List.mem_of_getLast? (Download.progress_of_ok hrun hresult)
  rw [← hreports] at hlast
  obtain ⟨r, hr, heq⟩ := List.mem_map.mp hlast
  refine ⟨r, hr, ?_⟩
  rw [Report.Completes, heq]
  exact ⟨rfl, hchunks⟩

/-- Every fetch that delivers announces completion twice: where the last attempt is a download that
succeeds, and the export writes all of its chunks. -/
theorem fetch_completes_twice {fs : Fs} {uri : Bytes} {root : Hash} {providers : List Peer}
    {env : FetchEnv} {a : FetchAttempt} {m : Manifest} {d : Disk} {s : Store}
    (hroot : Daemon.fetchRoot fs uri = .ok root) (hproviders : providers ≠ [])
    (hlast : env.made.getLast? = some a) (hdownload : a.Downloads root providers d s)
    (hok : a.result = .ok m) (hchunks : 0 < m.chunks.length)
    (hexport : m.chunks.length ≤ (env.exportCalls fs m).length) (id : UInt64) :
    1 < completions (fetchEvents fs id uri providers env) := by
  have hmany := (env.completions_le_one_iff fs id).not_left.mpr
    ⟨⟨a, List.mem_of_getLast? hlast, hdownload.completes hok hchunks⟩, m,
      by rw [FetchEnv.fetched, hlast, Option.bind_some, hok]; rfl, hchunks, hexport⟩
  rw [fetchEvents, hroot]
  dsimp only
  rw [if_neg (by simpa using hproviders)]
  exact Nat.lt_of_not_le hmany

end

/-! ## Fetching one byte -/

/-- The URI of the one-byte content `x`. -/
def uriOfX : Bytes := URI_PREFIX ++ rootOfX.toHex

/-- A fetch whose first attempt is this download, and the store as it leaves it. -/
def fetchOf (st : Download Unit) (m : Manifest) : FetchEnv where
  started := 0
  attempts _ := ⟨0, st.progress.map fun call => ⟨0, call.1, call.2⟩, .ok m⟩
  disk := st.disk
  store := st.store
  breaksAfter := none
  clock _ := 0

/-- The content is downloaded from its only provider and exported: completion is announced before
the file is written, and again. -/
theorem fetch_of_x_completes_twice :
    let _ := blake3OfX
    let _ := minFastCDC
    let m := Manifest.fromFiles [(dataPath, [120])] none
    ∃ st, runs (Download.step rootOfX [()]) (Download.start [()] (Disk.fresh ∅ ∅ some) Store.fresh)
        answersOfX = some st ∧ st.result = some (.ok m) ∧
      ¬ completions (fetchEvents fsOfX 1 uriOfX [()] (fetchOf st m)) ≤ 1 := by
  let _ := blake3OfX
  let _ := minFastCDC
  intro _ _ m
  obtain ⟨st, hrun, hview⟩ := Option.map_eq_some_iff.mp result_of_x
  obtain ⟨hresult, hexport⟩ := Prod.mk.inj hview
  have hok : st.result = some (.ok m) := bind_toOption_eq_some.mp hresult
  obtain ⟨hconsistent, hcalls⟩ :=
    (st.store.exportTo_ok_iff_calls st.disk m).mp (toOption_eq_some.mp hexport)
  have hroot : Daemon.fetchRoot fsOfX uriOfX = .ok rootOfX :=
    toOption_eq_some.mp (by decide +kernel)
  have hdownload : FetchAttempt.Downloads rootOfX [()] (Disk.fresh ∅ ∅ some) Store.fresh
      ((fetchOf st m).attempts 0) := by
    refine ⟨answersOfX, st, hrun, hok, ?_⟩
    rw [fetchOf, List.map_map]
    exact List.map_id _
  have hwritten : m.chunks.length ≤ ((fetchOf st m).exportCalls fsOfX m).length := by
    have hfile : Daemon.looksLikeTree m = false := by decide +kernel
    have hcreates : fsOfX.creates = true := rfl
    rw [FetchEnv.exportCalls, hfile, hcreates]
    exact hcalls.ge
  refine ⟨st, hrun, hok, Nat.not_le_of_lt ?_⟩
  have hchunks : 0 < m.chunks.length := by decide +kernel
  exact fetch_completes_twice hroot (List.cons_ne_nil _ _) rfl hdownload rfl hchunks hwritten 1

end Np2ptp
