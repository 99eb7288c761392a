import Np2ptp.Bridge.Convert
import Np2ptp.Bridge.Resolve

/-!
# Resolving a torrent, or else converting it

`resolve_or_convert_local` as a machine: `resolve`, then where nothing was found `convert_local`,
then `publish`. Every event brings the end nearer (`ResolveOrConvert.step_left`), so the call ends
whatever providers do. How it ends hangs on one call of `resolve`: everything else that a provider
can cause passes it over, the export of what it was downloaded from it ends the whole
(`resolve_or_convert_local_ok_iff`).
-/

namespace Np2ptp

open Lib

/-! ## Resolving comes to an end -/

namespace Resolve

variable {Peer : Type}

/-- A download in progress waits for its provider. -/
def Waits : Resolve Peer → Prop
  | .downloading _ p _ dl => dl.phase.Fits [p] ∧ dl.result = none
  | _ => True

/-- The directory of the local store. -/
def disk : Resolve Peer → Disk
  | .mapping d _ => d
  | .finding d _ _ => d
  | .downloading _ _ _ dl => dl.disk
  | .checking d _ _ _ _ => d
  | .returned d _ _ => d

theorem disk_next (root : Hash) (d : Disk) (s : Store) (rest : List Peer) :
    (next root d s rest).disk = d := by
  cases rest with
  | nil => rfl
  | cons p rest => rfl

/-- How many events are left. -/
def left : Resolve Peer → Nat × Nat × Nat × Nat
  | .mapping .. => (3, 0, 0, 0)
  | .finding .. => (2, 0, 0, 0)
  | .downloading _ _ rest dl => (1, 2 * rest.length + 1, dl.phase.left 1)
  | .checking _ _ _ rest _ => (1, 2 * rest.length, 0, 0)
  | .returned .. => (0, 0, 0, 0)

/-- The order in which events are left. -/
abbrev Fewer : Nat × Nat × Nat × Nat → Nat × Nat × Nat × Nat → Prop :=
  Prod.Lex (· < ·) (Prod.Lex (· < ·) (Prod.Lex (· < ·) (· < ·)))

theorem waits_next (root : Hash) (d : Disk) (s : Store) (rest : List Peer) :
    (next root d s rest).Waits := by
  cases rest with
  | nil => trivial
  | cons p rest => exact ⟨Download.start_fits [p] d s, rfl⟩

/-- The next provider, if there is one, is one fewer than were left. -/
theorem left_next (root : Hash) (d : Disk) (s : Store) (rest : List Peer) {n : Nat}
    {x : Nat × Nat} (h : 2 * rest.length ≤ n) : Fewer (next root d s rest).left (1, n, x) := by
  cases rest with
  | nil => exact .left _ _ Nat.zero_lt_one
  | cons p rest =>
    rw [List.length_cons] at h
    exact .right _ (.left _ _ (by omega))

section

variable [Blake3] [Sha1] [DecidableEq Peer] {verify : Option TorrentMeta} {st st' : Resolve Peer}
  {e : Event Peer}

theorem step_waits (h : st.Waits) (hstep : st.step verify e = some st') : st'.Waits := by
  cases steps_of_step hstep with
  | found => exact waits_next _ _ _ _
  | answered hs hr => exact ⟨Download.step_fits _ _ _ h.1 hs, hr⟩
  | failed hs hr => exact waits_next _ _ _ _
  | refuted hv he hno => exact waits_next _ _ _ _
  | _ => trivial

/-- One event brings the end nearer, whatever it is. -/
theorem step_left (h : st.Waits) (hstep : st.step verify e = some st') :
    Fewer st'.left st.left := by
  cases steps_of_step hstep with
  | unlooked hv => exact .left _ _ (by decide)
  | unmapped hv => exact .left _ _ (by decide)
  | mapped hv => exact .left _ _ (by decide)
  | unfound => exact .left _ _ (by decide)
  | @found d s root providers =>
    cases providers with
    | nil => exact .left _ _ (by decide)
    | cons p rest => exact .left _ _ (by decide)
  | answered hs hr => exact .right _ (.right _ (Download.step_left h.1 hs))
  | failed hs hr => exact left_next _ _ _ _ (Nat.le_succ _)
  | unverified hs hr hv => exact .left _ _ Nat.zero_lt_one
  | downloaded hs hr hv => exact .right _ (.left _ _ (Nat.lt_succ_self _))
  | unexported hv he => exact .left _ _ Nat.zero_lt_one
  | verified hv he hok => exact .left _ _ Nat.zero_lt_one
  | refuted hv he hno => exact left_next _ _ _ _ (Nat.le_refl _)

/-- A call that checks what it gets and has not returned goes on. -/
theorem enabled (info : TorrentMeta) (h : st.Waits) (hr : st.result = none) :
    ∃ e st', st.step (some info) e = some st' := by
  cases st with
  | mapping d s => exact ⟨.record (.error .shutdown), _, rfl⟩
  | finding d s root => exact ⟨.found (.error .shutdown), _, rfl⟩
  | downloading root p rest dl =>
    obtain ⟨a, dl', hs⟩ := Download.enabled root h.1 h.2
    exact ⟨.answered a, _, by rw [step, hs]; rfl⟩
  | checking d s root rest m =>
    refine ⟨.check, ?_⟩
    rw [step]
    rcases s.exportTree d m with ⟨e | files, s'⟩
    · exact ⟨_, rfl⟩
    · dsimp only
      split
      · exact ⟨_, rfl⟩
      · exact ⟨_, rfl⟩
  | returned d s r => cases hr

/-- The source files are left alone. -/
theorem step_sources (hstep : st.step verify e = some st') :
    st'.disk.sources = st.disk.sources := by
  cases steps_of_step hstep with
  | found => rw [disk_next]; rfl
  | answered hs hr => exact Download.step_sources hs
  | failed hs hr => rw [disk_next]; exact Download.step_sources hs
  | unverified hs hr hv => exact Download.step_sources hs
  | downloaded hs hr hv => exact Download.step_sources hs
  | refuted hv he hno => rw [disk_next]; rfl
  | _ => rfl

/-! ## How resolving fails -/

omit [Blake3] [Sha1] [DecidableEq Peer] in
theorem result_next (root : Hash) (d : Disk) (s : Store) (rest : List Peer) {err : BridgeError} :
    (next root d s rest).result ≠ some (.error err) := by
  intro h
  cases rest with
  | nil => cases h
  | cons p rest => cases h

/-- The lookups are answered. -/
def Event.Runs : Event Peer → Prop
  | .record value => value.isOk = true
  | .found providers => providers.isOk = true
  | _ => True

instance : ∀ e : Event Peer, Decidable e.Runs
  | .record value => inferInstanceAs (Decidable (value.isOk = true))
  | .found providers => inferInstanceAs (Decidable (providers.isOk = true))
  | .answered _ => .isTrue trivial
  | .check => .isTrue trivial

/-- The chunks of the manifest can be read from the store, and those of each file are as long
together as the file table says. -/
def Readable (d : Disk) (s : Store) (m : Manifest) : Prop :=
  ∃ out s', Store.readFiles d m m.files s = (some out, s') ∧ SizesMatch m.files out

omit [Sha1] [DecidableEq Peer] in
theorem Event.Brings.vetted {m : Manifest} (h : e.Brings m) : m.Vetted m.root := by
  obtain ⟨root, a, -, hm⟩ := h
  obtain ⟨rfl, hrest⟩ := vetted_of_getManifest hm
  exact ⟨rfl, hrest⟩

omit [Sha1] in
/-- The export of a vetted manifest succeeds where it is readable. -/
theorem exportTree_iff_readable {d : Disk} {s : Store} {m : Manifest} (h : m.Vetted m.root) :
    (∃ files s', s.exportTree d m = (.ok files, s')) ↔ Readable d s m := by
  obtain ⟨-, hroot, hvalid⟩ := h
  constructor
  · rintro ⟨files, s', he⟩
    obtain ⟨-, hread, hsizes, -⟩ := Store.exportTree_ok_iff.mp he
    exact ⟨files, s', hread, hsizes⟩
  · rintro ⟨files, s', hread, hsizes⟩
    exact ⟨files, s', Store.exportTree_ok_iff.mpr ⟨hvalid, hread, hsizes, fun _ => hroot⟩⟩

/-- Resolving fails at one place alone, as long as lookups are answered: where a manifest that was
downloaded is not readable. -/
theorem error_iff {info : TorrentMeta} (hkeeps : st.Keeps info fun m => m.Vetted m.root)
    (hruns : e.Runs) (hstep : st.step (some info) e = some st') :
    (∃ err, st'.result = some (.error err)) ↔ ∃ d s root rest m,
      st = .checking d s root rest m ∧ e = .check ∧ ¬ Readable d s m := by
  constructor
  · rintro ⟨err, h⟩
    cases steps_of_step hstep with
    | unlooked hv =>
      unfold getMapping at hv
      split at hv
      · cases hruns
      · cases hv
      · split at hv <;> cases hv
    | @unexported d s root rest m info' err' s' hv he =>
      refine ⟨d, s, root, rest, m, rfl, rfl, fun hread => ?_⟩
      obtain ⟨files, t, hok⟩ := (exportTree_iff_readable hkeeps).mpr hread
      rw [he] at hok
      cases hok
    | unfound => cases hruns
    | found => exact absurd h (result_next _ _ _ _)
    | failed hs hr => exact absurd h (result_next _ _ _ _)
    | refuted hv he hno => exact absurd h (result_next _ _ _ _)
    | _ => cases h
  · rintro ⟨d, s, root, rest, m, rfl, rfl, hno⟩
    cases steps_of_step hstep with
    | unexported hv he => exact ⟨_, rfl⟩
    | verified hv he hok =>
      exact absurd ((exportTree_iff_readable hkeeps).mp ⟨_, _, he⟩) hno
    | refuted hv he hdiffer =>
      exact absurd ((exportTree_iff_readable hkeeps).mp ⟨_, _, he⟩) hno

end

end Resolve

/-! ## The machine -/

/-- `Outcome`. -/
structure Bridge.Outcome where
  manifest : Manifest
  infohash : Bytes
  converted : Bool
  deriving DecidableEq

/-- How far `resolve_or_convert_local` is, with the local store. -/
inductive ResolveOrConvert (Peer : Type) where
  | resolving (st : Resolve Peer)
  | converting (d : Disk) (s : Store)
  /-- `publish`: first the content is announced, then the mapping is put. -/
  | providing (d : Disk) (s : Store) (m : Manifest)
  | putting (d : Disk) (s : Store) (m : Manifest)
  | returned (d : Disk) (s : Store) (result : Except BridgeError Bridge.Outcome)

namespace ResolveOrConvert

variable {Peer : Type}

/-- What the call waits for. Of `put_mapping` the answer is not looked at. -/
inductive Event (Peer : Type) where
  | resolve (e : Resolve.Event Peer)
  | convert
  | provided (r : Except NetError Unit)
  | put (r : Except NetError Bool)

/-- What the call has returned. -/
def result : ResolveOrConvert Peer → Option (Except BridgeError Bridge.Outcome)
  | .returned _ _ result => some result
  | _ => none

theorem eq_of_result {st : ResolveOrConvert Peer} {r : Except BridgeError Bridge.Outcome}
    (hr : st.result = some r) : ∃ d s, st = .returned d s r := by
  cases st with
  | returned d s r' =>
    cases hr
    exact ⟨d, s, rfl⟩
  | _ => cases hr

/-- `resolve` goes on, or has returned. -/
def resolved (info : TorrentMeta) : Resolve Peer → ResolveOrConvert Peer
  | .returned d s (.error e) => .returned d s (.error e)
  | .returned d s (.ok (some m)) => .returned d s (.ok ⟨m, info.infohash, false⟩)
  | .returned d s (.ok none) => .converting d s
  | st => .resolving st

section

variable [Blake3] [FastCDC] [Sha1] [DecidableEq Peer]

/-- One step of `resolve_or_convert_local`. -/
def step (info : TorrentMeta) (dataDir : Bytes) (noCopy : Bool) :
    ResolveOrConvert Peer → Event Peer → Option (ResolveOrConvert Peer)
  | .resolving st, .resolve e => (st.step (some info) e).map (resolved info)
  | .converting d s, .convert =>
    match convertLocal d s info dataDir noCopy with
    | (.error e, d, s) => some (.returned d s (.error e))
    | (.ok m, d, s) => some (.providing d s m)
  | .providing d s _, .provided (.error e) => some (.returned d s (.error (.net e)))
  | .providing d s m, .provided (.ok ()) => some (.putting d s m)
  | .putting d s _, .put (.error e) => some (.returned d s (.error (.net e)))
  | .putting d s m, .put (.ok _) => some (.returned d s (.ok ⟨m, info.infohash, true⟩))
  | _, _ => none

/-- The network task runs, so that it answers every lookup and command, and the local conversion
succeeds. -/
def Supposed (info : TorrentMeta) (dataDir : Bytes) (noCopy : Bool) (st : ResolveOrConvert Peer)
    (e : Event Peer) : Prop :=
  match e with
  | .resolve (.record value) => value.isOk = true
  | .resolve (.found providers) => providers.isOk = true
  | .convert => ∀ d s, st = .converting d s →
      ∃ m, (convertLocal d s info dataDir noCopy).1 = .ok m
  | .provided r => r.isOk = true
  | .put r => r.isOk = true
  | _ => True

/-- When a manifest is to be checked, its chunks can be read from the store, and those of each file
are as long together as the file table says. -/
def Exportable (st : ResolveOrConvert Peer) (e : Event Peer) : Prop :=
  ∀ d s root rest m, st = .resolving (.checking d s root rest m) → e = .resolve .check →
    Resolve.Readable d s m

/-- The call that began on the directory `d₀` has returned content that matches the torrent, or the
local conversion. -/
def Served (info : TorrentMeta) (dataDir : Bytes) (noCopy : Bool) (d₀ : Disk)
    (st : ResolveOrConvert Peer) : Prop :=
  ∃ o, st.result = some (.ok o) ∧ o.infohash = info.infohash ∧
    ((o.converted = false ∧ ∃ chunks, Resolve.Checked info o.manifest chunks) ∨
      (o.converted = true ∧ ∃ d s, d.sources = d₀.sources ∧
        (convertLocal d s info dataDir noCopy).1 = .ok o.manifest))

/-! ## One event -/

/-- The call goes on, and has converted what it publishes. -/
def Going (info : TorrentMeta) (dataDir : Bytes) (noCopy : Bool) (d₀ : Disk) :
    ResolveOrConvert Peer → Prop
  | .resolving st => st.Waits ∧ (st.Keeps info fun m => m.Vetted m.root) ∧ st.result = none ∧
      st.disk.sources = d₀.sources
  | .converting d _ => d.sources = d₀.sources
  | .providing _ _ m | .putting _ _ m => ∃ d s, d.sources = d₀.sources ∧
      (convertLocal d s info dataDir noCopy).1 = .ok m
  | .returned .. => False

/-- How many events are left. -/
def left : ResolveOrConvert Peer → Nat × Nat × Nat × Nat × Nat
  | .resolving st => (3, st.left)
  | .converting .. => (2, 0, 0, 0, 0)
  | .providing .. => (1, 0, 0, 0, 0)
  | .putting .. => (0, 0, 0, 0, 1)
  | .returned .. => (0, 0, 0, 0, 0)

variable {info : TorrentMeta} {dataDir : Bytes} {noCopy : Bool} {d₀ : Disk}
  {st st' : ResolveOrConvert Peer} {e : Event Peer}

omit [FastCDC] [Sha1] [DecidableEq Peer] in
theorem exportable_resolve_iff {rst : Resolve Peer} {re : Resolve.Event Peer} :
    Exportable (.resolving rst) (.resolve re) ↔ ¬ ∃ d s root rest m,
      rst = .checking d s root rest m ∧ re = .check ∧ ¬ Resolve.Readable d s m := by
  constructor
  · rintro h ⟨d, s, root, rest, m, rfl, rfl, hno⟩
    exact hno (h d s root rest m rfl rfl)
  · intro h d s root rest m hst he
    cases hst
    cases he
    by_contra hno
    exact h ⟨d, s, root, rest, m, rfl, rfl, hno⟩

omit [DecidableEq Peer] in
/-- Where `resolve` has not failed, the call goes on nearer to its end, or has served the
torrent. -/
theorem resolved_going {rst rst' : Resolve Peer} (hwaits : rst'.Waits)
    (hkeeps : rst'.Keeps info fun m => m.Vetted m.root) (hsources : rst'.disk.sources = d₀.sources)
    (hless : Resolve.Fewer rst'.left rst.left) (hne : ∀ err, rst'.result ≠ some (.error err)) :
    (resolved info rst').Served info dataDir noCopy d₀ ∨
      (resolved info rst').Going info dataDir noCopy d₀ ∧
        Prod.Lex (· < ·) Resolve.Fewer (resolved info rst').left (resolving rst).left := by
  cases rst' with
  | returned d s r =>
    cases r with
    | error err => exact absurd rfl (hne err)
    | ok o =>
      cases o with
      | none => exact .inr ⟨hsources, .left _ _ (by decide)⟩
      | some m => exact .inl ⟨_, rfl, rfl, .inl ⟨rfl, hkeeps.2⟩⟩
  | _ => exact .inr ⟨⟨hwaits, hkeeps, rfl, hsources⟩, .right _ hless⟩

/-- What one event does: it ends the call with an error where a manifest is not readable, and else
it brings the end nearer, or the call has served the torrent. -/
theorem step_going (h : st.Going info dataDir noCopy d₀) (hsup : Supposed info dataDir noCopy st e)
    (hstep : st.step info dataDir noCopy e = some st') :
    (Exportable st e ∧ (st'.Served info dataDir noCopy d₀ ∨ (st'.Going info dataDir noCopy d₀ ∧
        Prod.Lex (· < ·) Resolve.Fewer st'.left st.left))) ∨
      (¬ Exportable st e ∧ ∃ err, st'.result = some (.error err)) := by
  have hother : (∀ rst, st ≠ .resolving rst) → Exportable st e := by
    intro hne d s root rest m hst
    exact absurd hst (hne _)
  unfold step at hstep
  split at hstep
  · next rst re =>
    obtain ⟨hwaits, hkeeps, -, hsources⟩ := h
    obtain ⟨rst', hs, rfl⟩ := Option.map_eq_some_iff.mp hstep
    have hkeeps' := Resolve.step_keeps _ _ _ hkeeps (fun m hm => hm.vetted) hs
    have hruns : re.Runs := by
      cases re with
      | record value => exact hsup
      | found providers => exact hsup
      | _ => trivial
    have herror := Resolve.error_iff hkeeps hruns hs
    by_cases hexp : Exportable (.resolving rst) (.resolve re : Event Peer)
    · refine .inl ⟨hexp, resolved_going (Resolve.step_waits hwaits hs) hkeeps'
        ((Resolve.step_sources hs).trans hsources) (Resolve.step_left hwaits hs) ?_⟩
      intro err hr
      exact exportable_resolve_iff.mp hexp (herror.mp ⟨err, hr⟩)
    · refine .inr ⟨hexp, ?_⟩
      rw [exportable_resolve_iff, not_not] at hexp
      obtain ⟨err, hr⟩ := herror.mpr hexp
      obtain ⟨d, s, rfl⟩ := Resolve.eq_of_result hr
      exact ⟨err, rfl⟩
  · next d s =>
    obtain ⟨m, hm⟩ := hsup d s rfl
    refine .inl ⟨hother fun _ hst => (by cases hst), ?_⟩
    split at hstep
    · next hc =>
      rw [hc] at hm
      cases hm
    · next hc =>
      rw [hc] at hm
      cases hm
      cases hstep
      exact .inr ⟨⟨d, s, h, by rw [hc]⟩, .left _ _ (by decide)⟩
  · cases hsup
  · cases hstep
    exact .inl ⟨hother fun _ hst => (by cases hst), .inr ⟨h, .left _ _ (by decide)⟩⟩
  · cases hsup
  · cases hstep
    exact .inl ⟨hother fun _ hst => (by cases hst), .inl ⟨_, rfl, rfl, .inr ⟨rfl, h⟩⟩⟩
  · cases hstep

theorem enabled (h : st.Going info dataDir noCopy d₀) :
    ∃ e st', st.step info dataDir noCopy e = some st' := by
  cases st with
  | resolving rst =>
    obtain ⟨e, rst', hs⟩ := Resolve.enabled info h.1 h.2.2.1
    exact ⟨.resolve e, _, by rw [step, hs]; rfl⟩
  | converting d s =>
    refine ⟨.convert, ?_⟩
    rw [step]
    rcases convertLocal d s info dataDir noCopy with ⟨err | m, d', s'⟩
    · exact ⟨_, rfl⟩
    · exact ⟨_, rfl⟩
  | providing d s m => exact ⟨.provided (.ok ()), _, rfl⟩
  | putting d s m => exact ⟨.put (.ok true), _, rfl⟩
  | returned d s r => cases h

/-- A run that has returned is over. -/
theorem eq_nil_of_returned {events : List (Event Peer)}
    (hr : ∃ r, st.result = some r) (hrun : runs (step info dataDir noCopy) st events = some st') :
    events = [] ∧ st' = st := by
  obtain ⟨r, hr⟩ := hr
  obtain ⟨d, s, rfl⟩ := eq_of_result hr
  cases events with
  | nil =>
    cases hrun
    exact ⟨rfl, rfl⟩
  | cons e events =>
    obtain ⟨t, ht, -⟩ := runs_cons.mp hrun
    cases ht

/-- A run of a call that goes on: it has served the torrent if it has met readable manifests only,
and failed if not. -/
theorem served_iff {r : Except BridgeError Bridge.Outcome} :
    ∀ {events : List (Event Peer)} {st : ResolveOrConvert Peer},
    st.Going info dataDir noCopy d₀ →
    Along (step info dataDir noCopy) (Supposed info dataDir noCopy) st events →
    runs (step info dataDir noCopy) st events = some st' → st'.result = some r →
    (st'.Served info dataDir noCopy d₀ ↔
      Along (step info dataDir noCopy) (fun st e => Exportable st e) st events) := by
  intro events
  induction events with
  | nil =>
    intro st hgoing _ hrun hr
    obtain rfl : st = st' := Option.some.inj hrun
    cases st with
    | returned d s r => cases hgoing
    | _ => cases hr
  | cons e events ih =>
    intro st hgoing hsup hrun hr
    obtain ⟨t, ht, hrest⟩ := runs_cons.mp hrun
    rcases step_going hgoing hsup.1 ht with ⟨hexp, hserved | ⟨hgoing', -⟩⟩ | ⟨hno, err, herr⟩
    · obtain ⟨o, ho, hall⟩ := hserved
      obtain ⟨rfl, rfl⟩ := eq_nil_of_returned ⟨_, ho⟩ hrest
      exact iff_of_true ⟨o, ho, hall⟩ ⟨hexp, fun _ _ => trivial⟩
    · refine (ih hgoing' (hsup.2 t ht) hrest hr).trans
        ⟨fun h => ⟨hexp, fun u hu => ?_⟩, fun h => h.2 t ht⟩
      rw [ht] at hu
      cases hu
      exact h
    · obtain ⟨rfl, rfl⟩ := eq_nil_of_returned ⟨_, herr⟩ hrest
      refine iff_of_false ?_ fun h => hno h.1
      rintro ⟨o, ho, -⟩
      rw [herr] at ho
      cases ho

/-- The call serves the torrent if and only if every manifest that was downloaded is readable when
it is checked. Supposed that the network task runs, the local conversion succeeds and publishing
succeeds: as long as manifests are readable, the call is bound to return, with content that has the
piece hashes or with the local conversion, whatever the record, the providers and their answers;
and a call that has returned has done so exactly where all were readable. A manifest that lies about
the length of a chunk passes the checks of the download and is not readable. -/
theorem resolve_or_convert_local_ok_iff (info : TorrentMeta) (dataDir : Bytes) (noCopy : Bool)
    (d : Disk) (s : Store) :
    Inevitably (@step Peer _ _ _ _ info dataDir noCopy)
        (fun st e => Supposed info dataDir noCopy st e ∧ Exportable st e)
        (Served info dataDir noCopy d) (.resolving (.mapping d s)) ∧
      ∀ (events : List (Event Peer)) (st : ResolveOrConvert Peer)
        (r : Except BridgeError Bridge.Outcome),
        Along (step info dataDir noCopy) (Supposed info dataDir noCopy) (.resolving (.mapping d s))
          events →
        runs (step info dataDir noCopy) (.resolving (.mapping d s)) events = some st →
        st.result = some r →
        (st.Served info dataDir noCopy d ↔ Along (step info dataDir noCopy)
          (fun st e => Exportable st e) (.resolving (.mapping d s)) events) := by
  have hstart : (ResolveOrConvert.resolving (.mapping d s) : ResolveOrConvert Peer).Going info
      dataDir noCopy d := ⟨trivial, trivial, rfl, rfl⟩
  refine ⟨?_, fun events st r hsup hrun hr => served_iff hstart hsup hrun hr⟩
  refine inevitably_of_measure left (fun st hgoing _ => enabled hgoing) ?_ hstart
  intro st e st' hgoing hok hstep
  rcases step_going hgoing hok.1 hstep with ⟨-, h⟩ | ⟨hno, -⟩
  · exact h
  · exact absurd hok.2 hno

end

end ResolveOrConvert

/-! ## Runs on one byte -/

/-- Lookups that are answered are what is supposed of resolving. -/
theorem along_supposed [Blake3] [FastCDC] [Sha1] {Peer : Type} [DecidableEq Peer]
    {info : TorrentMeta} {dataDir : Bytes} {noCopy : Bool} (st : ResolveOrConvert Peer)
    {events : List (Resolve.Event Peer)} (h : ∀ e ∈ events, e.Runs) :
    Along (ResolveOrConvert.step info dataDir noCopy)
      (ResolveOrConvert.Supposed info dataDir noCopy) st (events.map .resolve) := by
  have hmem : ∀ e ∈ events.map ResolveOrConvert.Event.resolve, ∃ re : Resolve.Event Peer,
      re.Runs ∧ e = .resolve re := by
    intro e he
    obtain ⟨re, hre, rfl⟩ := List.mem_map.mp he
    exact ⟨re, h re hre, rfl⟩
  refine (along_of_mem st hmem).mono fun st e he => ?_
  obtain ⟨re, hruns, rfl⟩ := he
  cases re with
  | record value => exact hruns
  | found providers => exact hruns
  | _ => trivial

/-- A directory with the one byte `x` in the file `data`, beside a fresh store. -/
def dataDiskOfX : Disk :=
  .fresh ∅ (Finmap.singleton (ascii "/1/data") (.file [120])) some

/-- The torrent of one byte `x`, served by a provider. -/
theorem resolve_or_convert_x :
    let _ := blake3OfX
    let _ := minFastCDC
    let _ := sha1OfX
    let info := torrentOfX dataPath
    let start : ResolveOrConvert Unit := .resolving (.mapping dataDiskOfX .fresh)
    let events := eventsOfX.map ResolveOrConvert.Event.resolve
    ∃ st, runs (ResolveOrConvert.step info (ascii "/1") false) start events = some st ∧
      st.Served info (ascii "/1") false dataDiskOfX ∧
      Along (ResolveOrConvert.step info (ascii "/1") false)
        (fun st e => ResolveOrConvert.Exportable st e) start events := by
  have h : (@runs _ _ (@ResolveOrConvert.step Unit blake3OfX minFastCDC sha1OfX _
      (torrentOfX dataPath) (ascii "/1") false) (.resolving (.mapping dataDiskOfX .fresh))
      ((@eventsOfX blake3OfX minFastCDC).map .resolve)).bind ResolveOrConvert.result =
    some (.ok ⟨@Manifest.fromFiles blake3OfX minFastCDC [(dataPath, [120])] none,
      List.replicate 20 1, false⟩) := by
    decide +kernel
  have hchecked : @Hash.of blake3OfX [120] = digestOfX ∧
      (@Manifest.fromFiles blake3OfX minFastCDC [(dataPath, [120])] none).hashes = [digestOfX] ∧
      @Pinned sha1OfX 16384 [sha1DigestOfX] [120] := by
    decide +kernel
  have hruns : ∀ e ∈ @eventsOfX blake3OfX minFastCDC, e.Runs := by decide +kernel
  let _ := blake3OfX
  let _ := minFastCDC
  let _ := sha1OfX
  obtain ⟨st, hrun, hresult⟩ := Option.bind_eq_some_iff.mp h
  have hserved : st.Served (torrentOfX dataPath) (ascii "/1") false dataDiskOfX := by
    refine ⟨_, hresult, rfl, .inl ⟨rfl, [[120]], ?_, hchecked.2.2⟩⟩
    rw [hchecked.2.1, ← hchecked.1]
    rfl
  refine ⟨st, hrun, hserved, ?_⟩
  refine ((ResolveOrConvert.resolve_or_convert_local_ok_iff _ _ _ _ _).2 _ _ _ ?_ hrun
    hresult).mp hserved
  exact along_supposed _ hruns

/-- A manifest of the content `x` that says that its one chunk has two bytes. -/
def lyingManifest : Manifest where
  root := rootOfX
  totalSize := 2
  chunks := [⟨digestOfX, 0, 2⟩]
  files := [⟨dataPath, 2, 0, 1⟩]
  name := none

/-- The provider answers with that manifest, and then with the chunk. -/
def lyingEvents : List (Resolve.Event Unit) :=
  [.record (.ok (some rootOfX.bytes)), .found (.ok [()]),
    .answered (.manifest (.ok (.manifest (some lyingManifest.toNptp)))),
    .answered (.chunk 0 (.ok (.chunk (some [120])))), .check]

/-- A liar blocks the local conversion, which would succeed: the call returns the error of the
export. -/
theorem resolve_or_convert_blocked :
    let _ := blake3OfX
    let _ := minFastCDC
    let _ := sha1OfX
    let info := torrentOfX dataPath
    let start : ResolveOrConvert Unit := .resolving (.mapping dataDiskOfX .fresh)
    let events := lyingEvents.map ResolveOrConvert.Event.resolve
    Along (ResolveOrConvert.step info (ascii "/1") false)
        (ResolveOrConvert.Supposed info (ascii "/1") false) start events ∧
      (∃ m, (convertLocal dataDiskOfX .fresh info (ascii "/1") false).1 = .ok m) ∧
      ∃ st, runs (ResolveOrConvert.step info (ascii "/1") false) start events = some st ∧
        st.result = some (.error (.store (.manifest (.sizeMismatch 1 2)))) := by
  have h : (@runs _ _ (@ResolveOrConvert.step Unit blake3OfX minFastCDC sha1OfX _
      (torrentOfX dataPath) (ascii "/1") false) (.resolving (.mapping dataDiskOfX .fresh))
      (lyingEvents.map .resolve)).bind ResolveOrConvert.result =
    some (.error (.store (.manifest (.sizeMismatch 1 2)))) := by
    decide +kernel
  have hruns : ∀ e ∈ lyingEvents, e.Runs := by decide +kernel
  have hfiles : dataDiskOfX.HasFiles ((torrentOfX dataPath).onDisk (ascii "/1")) [[120]] := by
    decide +kernel
  have hpinned : @Pinned sha1OfX 16384 [sha1DigestOfX] [120] := by decide +kernel
  have hingest : (@Store.ingestTreeFiles blake3OfX minFastCDC dataDiskOfX Store.fresh
      ((torrentOfX dataPath).onDisk (ascii "/1")) (some (torrentOfX dataPath).name) false).1 =
    .ok (@Manifest.fromFiles blake3OfX minFastCDC [(dataPath, [120])]
      (some (torrentOfX dataPath).name)) := by
    decide +kernel
  let _ := blake3OfX
  let _ := minFastCDC
  let _ := sha1OfX
  obtain ⟨st, hrun, hresult⟩ := Option.bind_eq_some_iff.mp h
  refine ⟨along_supposed _ hruns, ⟨_, convertLocal_ok.mpr ⟨?_, hingest⟩⟩, st, hrun, hresult⟩
  exact verifyPiecesStreaming_iff.mpr ⟨_, hfiles, hpinned⟩

end Np2ptp
