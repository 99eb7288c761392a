import Np2ptp.Lib.Runs
import Np2ptp.Net.Binding
import Np2ptp.Net.EventLoop

/-!
# The receipts of a download

When the loop of `download_multi` is over, a receipt is submitted for every provider that bytes were
taken from. What the loop adds up is what the run has taken (`Download.Account.Adds`), so every
provider gets its receipt, unless the loop is left early: a chunk that cannot be stored ends the
call at once, with the bytes taken so far unacknowledged (`download_multi_acknowledges`).
-/

namespace Np2ptp

open Lib

variable {Peer : Type} [DecidableEq Peer]

/-! ## What is submitted -/

/-- The `submit_receipt` calls after the loop: one for each entry that is not zero, in whatever
order the map is walked. The amounts stay below `2 ^ 64`. -/
def Submits (receipts : HashMap Peer Nat) (sent : List (Peer × Nat)) : Prop :=
  (sent.map Prod.fst).Nodup ∧ ∀ r, r ∈ sent ↔ receipts.lookup r.1 = some r.2 ∧ 0 < r.2

/-- What is submitted for one peer. -/
theorem Submits.filter {receipts : HashMap Peer Nat} {sent : List (Peer × Nat)}
    (h : Submits receipts sent) (p : Peer) : sent.filter (fun r => decide (r.1 = p)) =
      if (receipts.lookup p).getD 0 = 0 then [] else [(p, (receipts.lookup p).getD 0)] := by
  obtain ⟨hnodup, hmem⟩ := h
  split
  · next hzero =>
    refine List.filter_eq_nil_iff.mpr fun r hr => ?_
    obtain ⟨hlookup, hpos⟩ := (hmem r).mp hr
    intro he
    rw [decide_eq_true_eq] at he
    rw [← he, hlookup, Option.getD_some] at hzero
    omega
  · next hne =>
    obtain ⟨n, hn⟩ : ∃ n, receipts.lookup p = some n := by
      refine Option.ne_none_iff_exists'.mp fun hnone => hne ?_
      rw [hnone, Option.getD_none]
    rw [hn, Option.getD_some] at hne ⊢
    refine List.perm_singleton.mp ((List.perm_ext_iff_of_nodup ?_ (List.nodup_singleton _)).mpr ?_)
    · exact (List.Nodup.of_map _ hnodup).filter _
    · intro r
      rw [List.mem_filter, hmem, decide_eq_true_eq, List.mem_singleton]
      constructor
      · rintro ⟨⟨hr, -⟩, he⟩
        rw [he, hn] at hr
        exact Prod.ext he (Option.some.inj hr).symm
      · rintro rfl
        exact ⟨⟨hn, Nat.pos_of_ne_zero hne⟩, rfl⟩

/-! ## What is taken -/

/-- The bytes that came from the peer. -/
def takenFrom (p : Peer) (taken : List (Peer × Bytes)) : Nat :=
  ((taken.filter fun t => decide (t.1 = p)).map fun t => t.2.length).sum

theorem takenFrom_concat (p : Peer) (taken : List (Peer × Bytes)) (t : Peer × Bytes) :
    takenFrom p (taken ++ [t]) = takenFrom p taken + if t.1 = p then t.2.length else 0 := by
  unfold takenFrom
  rw [List.filter_append, List.map_append, List.sum_append]
  by_cases h : t.1 = p
  · rw [List.filter_cons_of_pos (by simpa using h), if_pos h]
    rfl
  · rw [List.filter_cons_of_neg (by simpa using h), if_neg h]
    rfl

/-- Nothing came from anybody if and only if everything that came is empty. -/
theorem takenFrom_eq_zero_iff {taken : List (Peer × Bytes)} :
    (∀ p, takenFrom p taken = 0) ↔ ∀ t ∈ taken, t.2 = [] := by
  unfold takenFrom
  constructor
  · intro h t ht
    refine List.eq_nil_of_length_eq_zero (List.sum_eq_zero_iff_forall_eq_nat.mp (h t.1) _ ?_)
    exact List.mem_map_of_mem (List.mem_filter.mpr ⟨ht, decide_eq_true rfl⟩)
  · intro h p
    refine List.sum_eq_zero_iff_forall_eq_nat.mpr fun n hn => ?_
    obtain ⟨t, ht, rfl⟩ := List.mem_map.mp hn
    rw [h t (List.mem_filter.mp ht).1]
    rfl

section

variable [Blake3]

/-- The verified bytes that an answer brings, and the provider they are taken from. -/
def Download.taken (providers : List Peer) (st : Download Peer) : Answered → Option (Peer × Bytes)
  | .manifest _ => none
  | .chunk slot a =>
    match st.phase with
    | .fetching f =>
      (f.inFlight.find? fun t => decide (t.slot = slot)).bind fun t =>
        (t.provider providers).bind fun p => (st.brought (.chunk slot a)).map (Prod.mk p)
    | _ => none

/-- The chunk that an answer brings, if it brings one, can be stored. -/
def Download.Writes (st : Download Peer) (a : Answered) : Prop :=
  ∀ bytes, st.brought a = some bytes → (st.store.put st.disk bytes).1.isOk = true

instance (st : Download Peer) (a : Answered) : Decidable (st.Writes a) :=
  decidable_of_iff (∀ bytes ∈ st.brought a, (st.store.put st.disk bytes).1.isOk = true) Iff.rfl

omit [DecidableEq Peer] in
theorem Download.taken_of_not {providers : List Peer} {st : Download Peer} {a : Answered}
    (h : st.brought a = none) : st.taken providers a = none := by
  cases a with
  | manifest a => rfl
  | chunk slot a =>
    rw [Download.taken, h]
    split
    · simp
    · rfl

omit [DecidableEq Peer] in
theorem Download.taken_of_ok {providers : List Peer} {st : Download Peer} {slot : Nat} {a : Answer}
    {f : Fetching Peer} {t : Fetch} {bytes : Bytes} (hp : st.phase = .fetching f)
    (ht : f.InFlight slot t) (hb : fetchChunk a = .ok (some bytes))
    (hok : f.manifest.chunkHashOk t.index bytes = true) :
    st.taken providers (.chunk slot a) = (t.provider providers).map fun p => (p, bytes) := by
  rw [Download.taken, hp, Download.brought_of_ok hp ht hb hok]
  dsimp only
  rw [show f.inFlight.find? _ = some t from ht, Option.bind_some]
  cases t.provider providers <;> rfl

/-! ## The loop adds up what it takes -/

/-- The account of the peers is what was taken. -/
def Adds (fetchedBytes : HashMap Peer Nat) (taken : List (Peer × Bytes)) : Prop :=
  ∀ p, (fetchedBytes.lookup p).getD 0 = takenFrom p taken

omit [Blake3] in
theorem Adds.credit {fetchedBytes : HashMap Peer Nat} {taken : List (Peer × Bytes)}
    (h : Adds fetchedBytes taken) (peer : Option Peer) (bytes : Bytes) :
    Adds (credit fetchedBytes peer bytes)
      (taken ++ (peer.map fun p => (p, bytes)).toList) := by
  intro p
  cases peer with
  | none => rw [Option.map_none, Option.toList_none, List.append_nil]; exact h p
  | some q =>
    rw [Option.map_some, Option.toList_some, takenFrom_concat, ← h p, Np2ptp.credit]
    by_cases he : q = p
    · subst he
      rw [Finmap.lookup_insert, if_pos rfl, Option.getD_some]
    · rw [Finmap.lookup_insert_of_ne _ (Ne.symm he), if_neg he, Nat.add_zero]

/-- The account of the phase is what was taken. -/
def Phase.Adds (taken : List (Peer × Bytes)) : Phase Peer → Prop
  | .manifest _ => taken = []
  | .fetching f => Np2ptp.Adds f.fetchedBytes taken
  | .returned _ receipts => Np2ptp.Adds receipts taken

omit [Blake3] in
theorem Fetching.poll_adds {f : Fetching Peer} {taken : List (Peer × Bytes)}
    (h : Adds f.fetchedBytes taken) : f.poll.Adds taken := by
  rcases Fetching.poll_cases f with ⟨he, -⟩ | ⟨-, ⟨e, -, he⟩ | ⟨-, he⟩⟩
  · rw [he]
    exact h
  · rw [he]
    exact h
  · rw [he]
    exact h

omit [Blake3] in
theorem adds_empty : Adds (∅ : HashMap Peer Nat) [] := fun p => by
  rw [Finmap.lookup_empty]
  rfl

/-- One answer: what it brings is added to the account of the provider, if it can be stored. -/
theorem Download.step_adds {root : Hash} {providers : List Peer} {st st' : Download Peer}
    {a : Answered} {taken : List (Peer × Bytes)} (h : st.phase.Adds taken) (hok : st.Writes a)
    (hstep : st.step root providers a = some st') :
    st'.phase.Adds (taken ++ (st.taken providers a).toList) := by
  cases Download.steps_of_step hstep with
  | accepted hp hm =>
    rw [hp] at h
    obtain rfl : taken = [] := h
    exact Fetching.poll_adds adds_empty
  | refused hp he hrest =>
    rw [hp] at h
    obtain rfl : taken = [] := h
    rfl
  | exhausted hp he =>
    rw [hp] at h
    obtain rfl : taken = [] := h
    exact adds_empty
  | next hp ht hno hk =>
    rw [Download.taken_of_not (Download.brought_of_not hp ht hno), Option.toList_none,
      List.append_nil]
    rw [hp] at h
    exact h
  | failed hp ht hno hk =>
    rw [Download.taken_of_not (Download.brought_of_not hp ht hno), Option.toList_none,
      List.append_nil]
    rw [hp] at h
    exact Fetching.poll_adds h
  | unwritten hp ht hb hchunk hput =>
    have hstored := hok _ (Download.brought_of_ok hp ht hb hchunk)
    rw [hput] at hstored
    cases hstored
  | stored hp ht hb hchunk hput =>
    rw [Download.taken_of_ok hp ht hb hchunk]
    rw [hp] at h
    exact Fetching.poll_adds (h.credit _ _)

/-- A chunk that cannot be stored ends the call, and no receipt is left. -/
theorem Download.returned_of_not_writes {root : Hash} {providers : List Peer}
    {st st' : Download Peer} {a : Answered} (h : ¬ st.Writes a)
    (hstep : st.step root providers a = some st') : ∃ e, st'.phase = .returned (.error e) ∅ := by
  cases Download.steps_of_step hstep with
  | accepted hp hm => exact absurd (fun bytes hb => by cases hb) h
  | refused hp he hrest => exact absurd (fun bytes hb => by cases hb) h
  | exhausted hp he => exact absurd (fun bytes hb => by cases hb) h
  | next hp ht hno hk =>
    refine absurd (fun bytes hb => ?_) h
    rw [Download.brought_of_not hp ht hno] at hb
    cases hb
  | failed hp ht hno hk =>
    refine absurd (fun bytes hb => ?_) h
    rw [Download.brought_of_not hp ht hno] at hb
    cases hb
  | unwritten hp ht hb hchunk hput => exact ⟨_, rfl⟩
  | stored hp ht hb hchunk hput =>
    refine absurd (fun bytes hbytes => ?_) h
    rw [Download.brought_of_ok hp ht hb hchunk] at hbytes
    cases hbytes
    rw [hput]
    rfl

/-- A call that has returned takes no more answers. -/
theorem Download.step_of_returned {root : Hash} {providers : List Peer} {st st' : Download Peer}
    {a : Answered} {result : Except NetError Manifest} {receipts : HashMap Peer Nat}
    (h : st.phase = .returned result receipts) : st.step root providers a ≠ some st' := by
  intro hstep
  cases a with
  | manifest a =>
    rw [Download.step, h] at hstep
    cases hstep
  | chunk slot a =>
    rw [Download.step, h] at hstep
    cases hstep

/-- A provider answers with a manifest that is accepted. -/
theorem Download.step_accepted {root : Hash} {providers rest : List Peer} {p : Peer}
    {st : Download Peer} {a : Answer} {m : Manifest} (hphase : st.phase = .manifest (p :: rest))
    (h : getManifest root a = .ok m) :
    st.step root providers (.manifest a) = some (st.begin m) := by
  rw [Download.step, hphase]
  dsimp only
  rw [h]

/-- An answer ends a fetch. -/
theorem Download.step_ended {root : Hash} {providers : List Peer} {st : Download Peer}
    {f : Fetching Peer} {t : Fetch} {slot : Nat} {a : Answer} {r : Except NetError Bytes}
    (hphase : st.phase = .fetching f)
    (ht : f.inFlight.find? (fun t => decide (t.slot = slot)) = some t)
    (h : t.answer f.manifest providers.length a = .inr r) :
    st.step root providers (.chunk slot a) = some (st.take
      { f with inFlight := f.inFlight.filter fun u => decide (u.slot ≠ slot) }
      (t.provider providers) r) := by
  rw [Download.step, hphase]
  dsimp only
  rw [ht]
  dsimp only
  rw [h]

/-! ## What the node sends -/

variable [Ed25519] [RaptorQ]

/-- What an event submits. -/
def NodeEvent.submission : NodeEvent Peer → Option (Peer × UInt64)
  | .submitReceipt peer bytes => some (peer, bytes)
  | _ => none

/-- The peer is identified when something is submitted for it. -/
def EventLoop.Identifies (p : Peer) (e : EventLoop Peer) (ev : NodeEvent Peer) : Prop :=
  ∀ n, ev = .submitReceipt p n → p ∈ e.repPeers

/-- What is submitted is sent: an identified peer gets one receipt for each submission, for as many
bytes, whatever else the node does in between. -/
theorem EventLoop.issued_bytes {p : Peer} : ∀ {events : List (NodeEvent Peer)}
    {e e' : EventLoop Peer}, Along EventLoop.step (EventLoop.Identifies p) e events →
    runs EventLoop.step e events = some e' →
    (((gathered EventLoop.step EventLoop.issued e events).filter
        fun r => decide (r.1 = p)).map fun r => r.2.bytes) =
      ((events.filterMap NodeEvent.submission).filter fun r => decide (r.1 = p)).map Prod.snd := by
  intro events
  induction events with
  | nil => exact fun _ _ => rfl
  | cons ev events ih =>
    intro e e' halong hrun
    obtain ⟨t, ht, hrest⟩ := runs_cons.mp hrun
    have hnext := ih (halong.2 t ht) hrest
    rw [gathered, ht]
    dsimp only
    rw [List.filter_append, List.map_append, hnext]
    have hone : ((e.issued ev).toList.filter fun r => decide (r.1 = p)).map (fun r => r.2.bytes) =
        (ev.submission.toList.filter fun r => decide (r.1 = p)).map Prod.snd := by
      cases ev with
      | submitReceipt q n =>
        by_cases hq : q = p
        · subst hq
          obtain ⟨key, hkey⟩ := Finmap.mem_iff.mp (halong.1 n rfl)
          simp [EventLoop.issued, NodeEvent.submission, hkey, Receipt.issue]
        · cases hkey : e.repPeers.lookup q with
          | none => simp [EventLoop.issued, NodeEvent.submission, hkey, hq]
          | some key => simp [EventLoop.issued, NodeEvent.submission, hkey, hq]
      | _ => rfl
    rw [hone, ← List.map_append, ← List.filter_append]
    congr 2
    cases ev <;> rfl

/-! ## Every provider, however the download ends -/

/-- Every verified byte is acknowledged if and only if every chunk that the run took could be
stored, or nothing was in those it took: then each provider is submitted for once, for what was
taken from it, and the node sends an identified one a receipt for so many bytes. -/
theorem download_multi_acknowledges {root : Hash} {providers : List Peer} {d : Disk} {s : Store}
    {answers : List Answered} {st : Download Peer} {result : Except NetError Manifest}
    {receipts : HashMap Peer Nat} {sent : List (Peer × Nat)}
    (hrun : runs (Download.step root providers) (Download.start providers d s) answers = some st)
    (hreturned : st.phase = .returned result receipts) (hsent : Submits receipts sent) :
    let taken := gathered (Download.step root providers) (Download.taken providers)
      (Download.start providers d s) answers
    ((∀ p, sent.filter (fun r => decide (r.1 = p)) =
        if takenFrom p taken = 0 then [] else [(p, takenFrom p taken)]) ↔
      (Along (Download.step root providers) Download.Writes (Download.start providers d s) answers ∨
        ∀ t ∈ taken, t.2 = [])) ∧
    ∀ (p : Peer) (e e' : EventLoop Peer) (events : List (NodeEvent Peer)),
      events.filterMap NodeEvent.submission = sent.map (fun r => (r.1, UInt64.ofNat r.2)) →
      Along EventLoop.step (EventLoop.Identifies p) e events →
      runs EventLoop.step e events = some e' →
      (((gathered EventLoop.step EventLoop.issued e events).filter
          fun r => decide (r.1 = p)).map fun r => r.2.bytes) =
        (sent.filter fun r => decide (r.1 = p)).map fun r => UInt64.ofNat r.2 := by
  intro taken
  refine ⟨?_, fun p e e' events hevents halong hruns => ?_⟩
  · have hadds : (∀ p, sent.filter (fun r => decide (r.1 = p)) =
        if takenFrom p taken = 0 then [] else [(p, takenFrom p taken)]) ↔ Adds receipts taken := by
      refine forall_congr' fun p => ?_
      rw [hsent.filter p]
      constructor
      · intro h
        by_cases hr : (receipts.lookup p).getD 0 = 0
        · rw [if_pos hr] at h
          by_cases ht : takenFrom p taken = 0
          · rw [hr, ht]
          · rw [if_neg ht] at h
            cases h
        · rw [if_neg hr] at h
          by_cases ht : takenFrom p taken = 0
          · rw [if_pos ht] at h
            cases h
          · rw [if_neg ht] at h
            exact (Prod.mk.inj (List.singleton_inj.mp h)).2
      · intro h
        rw [h]
    rw [hadds]
    by_cases hwrites : Along (Download.step root providers) Download.Writes
        (Download.start providers d s) answers
    · refine ⟨fun _ => .inl hwrites, fun _ => ?_⟩
      have hstart : (Download.start providers d s).phase.Adds [] := by
        show (if providers = [] then Phase.returned (.error .noProviders) ∅ else
          .manifest providers).Adds []
        split
        · exact adds_empty
        · rfl
      have hend := runs_gathered (I := fun st taken => st.phase.Adds taken)
        (fun _ _ _ _ h hok hstep => Download.step_adds h hok hstep) hstart hwrites hrun
      rw [hreturned, List.nil_append] at hend
      exact hend
    · obtain ⟨pre, a, post, t, t', -, -, hstep, hfails, hpost⟩ :=
        exists_of_not_along hwrites hrun
      obtain ⟨e, he⟩ := Download.returned_of_not_writes hfails hstep
      have hempty : receipts = ∅ := by
        cases post with
        | nil =>
          cases hpost
          rw [hreturned] at he
          exact (Phase.returned.inj he).2
        | cons b post =>
          obtain ⟨u, hu, -⟩ := runs_cons.mp hpost
          exact absurd hu (Download.step_of_returned he)
      have hnothing : Adds receipts taken ↔ ∀ p, takenFrom p taken = 0 := by
        rw [hempty]
        refine forall_congr' fun p => ?_
        rw [Finmap.lookup_empty]
        exact eq_comm
      rw [hnothing, takenFrom_eq_zero_iff]
      exact ⟨.inr, fun h => h.resolve_left hwrites⟩
  · rw [EventLoop.issued_bytes halong hruns, hevents, List.filter_map, List.map_map]
    rfl

end

/-- The one-byte content `x` is downloaded, and its provider is sent a receipt for one byte. -/
theorem acknowledged_x :
    let _ := blake3OfX
    let _ := minFastCDC
    ∃ st result receipts,
      runs (Download.step rootOfX [()]) (Download.start [()] (Disk.fresh ∅ ∅ some) Store.fresh)
        answersOfX = some st ∧ st.phase = .returned result receipts ∧
      ∀ sent, Submits receipts sent → sent.filter (fun r => decide (r.1 = ())) = [((), 1)] := by
  have hrun : (runs (@Download.step blake3OfX Unit _ rootOfX [()])
      (Download.start [()] (Disk.fresh ∅ ∅ some) Store.fresh)
        (@answersOfX blake3OfX minFastCDC)).map (fun st => st.result.isSome) = some true := by
    decide +kernel
  have hwrites : Along (@Download.step blake3OfX Unit _ rootOfX [()])
      (@Download.Writes Unit blake3OfX) (Download.start [()] (Disk.fresh ∅ ∅ some) Store.fresh)
        (@answersOfX blake3OfX minFastCDC) := by
    decide +kernel
  have htaken : gathered (@Download.step blake3OfX Unit _ rootOfX [()])
      (@Download.taken Unit blake3OfX [()])
      (Download.start [()] (Disk.fresh ∅ ∅ some) Store.fresh)
        (@answersOfX blake3OfX minFastCDC) = [((), [120])] := by
    decide +kernel
  let _ := blake3OfX
  let _ := minFastCDC
  obtain ⟨st, hst, hresult⟩ := Option.map_eq_some_iff.mp hrun
  obtain ⟨result, hr⟩ := Option.isSome_iff_exists.mp hresult
  obtain ⟨receipts, hp⟩ := Download.phase_of_result hr
  refine ⟨st, result, receipts, hst, hp, fun sent hsent => ?_⟩
  let _ := noSignatures
  let _ := oneSymbolCode
  have h := (download_multi_acknowledges hst hp hsent).1.mpr (.inl hwrites) ()
  rw [htaken] at h
  exact h

/-- A store whose pack file has the largest size there is. -/
def fullDisk (content : Bytes) : Disk := ⟨[], [], Finmap.singleton 0 content, ∅, ∅, some⟩

/-- Nothing can be written to it. -/
theorem Store.put_fullDisk [Blake3] {content : Bytes} (hfull : content.length = MAX_FILE)
    {bytes : Bytes} (hne : bytes ≠ []) :
    ∃ d s, Store.fresh.put (fullDisk content) bytes = (.error .io, d, s) := by
  have hpos := List.length_pos_iff.mpr hne
  have hlookup : ((fullDisk content).packs.lookup 0).getD [] = content := by
    rw [fullDisk, Finmap.lookup_singleton_eq, Option.getD_some]
  have hwrite : (PackState.write (fullDisk content) ⟨0, 0⟩ bytes).1 = none := by
    rw [PackState.write, PackState.rotate, if_neg (by decide : ¬ PACK_ROTATE_SIZE ≤ 0)]
    dsimp only
    rw [hlookup, if_pos (by omega : MAX_FILE < content.length + bytes.length)]
  have hrecheck : (Store.fresh.tryRefreshPackIndex (fullDisk content)).recheck (fullDisk content) =
      Store.fresh := rfl
  rcases Store.put_cases (fullDisk content) Store.fresh bytes with
    ⟨hheld, -⟩ | ⟨-, hheld, -⟩ | ⟨-, -, ⟨hheld, -⟩ | ⟨-, hput⟩⟩
  · cases hheld
  · exact absurd hheld Finmap.notMem_empty
  · cases hheld
  · rcases hput with ⟨p, d, -, hput⟩ | ⟨id, offset, p, d, hw, -⟩
    · exact ⟨d, _, hput⟩
    · rw [hrecheck] at hw
      rw [show PackState.write (fullDisk content) ⟨0, 0⟩ bytes = _ from hw] at hwrite
      cases hwrite

/-- The fetch for the chunk `x`. -/
def fetchOfX : Fetch := ⟨0, 0, digestOfX, 0, .missingChunk digestOfX⟩

/-- A download into the full store that waits for the chunk `x` alone. -/
def fetchingX (m : Manifest) (content : Bytes) : Download Unit :=
  ⟨fullDisk content, Store.fresh, [(0, 1)], .fetching ⟨m, [], [fetchOfX], 0, ∅, none⟩⟩

/-- A byte is not acknowledged: the one-byte content `x` is downloaded into a store whose pack file
is full; the chunk was taken from the provider and verified, and no receipt is submitted. -/
theorem unacknowledged_x :
    let _ := blake3OfX
    let _ := minFastCDC
    ∃ content st result receipts,
      runs (Download.step rootOfX [()]) (Download.start [()] (fullDisk content) Store.fresh)
        answersOfX = some st ∧ st.phase = .returned result receipts ∧
      gathered (Download.step rootOfX [()]) (Download.taken [()])
        (Download.start [()] (fullDisk content) Store.fresh) answersOfX = [((), [120])] ∧
      ∀ sent, Submits receipts sent → sent.filter (fun r => decide (r.1 = ())) = [] := by
  have haccept := getManifest_x
  have hchunks : (@Manifest.fromFiles blake3OfX minFastCDC [(dataPath, [120])] none).chunks =
      [⟨digestOfX, 0, 1⟩] := by
    decide +kernel
  have hchunk : @Manifest.chunkHashOk blake3OfX
      (@Manifest.fromFiles blake3OfX minFastCDC [(dataPath, [120])] none) 0 [120] = true := by
    decide +kernel
  let _ := blake3OfX
  let _ := minFastCDC
  obtain ⟨content, hfull⟩ : ∃ content : Bytes, content.length = MAX_FILE :=
    ⟨List.replicate MAX_FILE 0, List.length_replicate⟩
  obtain ⟨d, s, hput⟩ := Store.put_fullDisk hfull (List.cons_ne_nil 120 [])
  dsimp only at haccept
  generalize hm : Manifest.fromFiles [(dataPath, [120])] none = m at haccept hchunks hchunk
  have hbegin : (Download.start [()] (fullDisk content) Store.fresh).begin m =
      fetchingX m content := by
    rw [Download.begin, hchunks]
    rfl
  have hfirst : Download.step rootOfX [()] (Download.start [()] (fullDisk content) Store.fresh)
      (.manifest (.ok (.manifest (some m.toNptp)))) =
      some (fetchingX m content) := by
    rw [← hbegin]
    exact Download.step_accepted rfl haccept
  have hanswer : Fetch.answer m 1 fetchOfX (.ok (.chunk (some [120]))) = .inr (.ok [120]) := by
    rw [Fetch.answer, fetchChunk]
    exact if_pos hchunk
  have hsecond : Download.step rootOfX [()] (fetchingX m content)
      (.chunk 0 (.ok (.chunk (some [120])))) =
      some ⟨d, s, [(0, 1)], .returned (.error (.store .io)) ∅⟩ := by
    have hended : Download.step rootOfX [()] (fetchingX m content)
        (.chunk 0 (.ok (.chunk (some [120])))) =
        some ((fetchingX m content).take ⟨m, [], [], 0, ∅, none⟩ (some ()) (.ok [120])) :=
      Download.step_ended (f := ⟨m, [], [fetchOfX], 0, ∅, none⟩) (t := fetchOfX) rfl rfl hanswer
    rw [hended, Download.take]
    dsimp only
    rw [show (fetchingX m content).store.put (fetchingX m content).disk [120] = _ from hput]
    rfl
  have htaken : Download.taken [()] (fetchingX m content)
      (.chunk 0 (.ok (.chunk (some [120])))) = some ((), [120]) :=
    Download.taken_of_ok (f := ⟨m, [], [fetchOfX], 0, ∅, none⟩) (t := fetchOfX) rfl rfl rfl hchunk
  refine ⟨content, ⟨d, s, [(0, 1)], .returned (.error (.store .io)) ∅⟩, _, _, ?_, rfl, ?_,
    fun sent hsent => hsent.filter ()⟩
  · rw [answersOfX, hm]
    exact runs_cons.mpr ⟨_, hfirst, runs_cons.mpr ⟨_, hsecond, rfl⟩⟩
  · rw [answersOfX, hm, gathered, hfirst]
    dsimp only
    rw [gathered, hsecond, htaken]
    rfl

end Np2ptp
