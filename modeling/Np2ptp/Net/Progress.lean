import Np2ptp.Core.BuiltManifest
import Np2ptp.Lib.Runs
import Np2ptp.Net.Binding
import Np2ptp.Store.Readable

/-!
# A download only makes progress

What a download has done is kept as a tally along its run: the chunks it has stored, the calls of
`on_progress`, and for every listed chunk whether it is there, is being fetched, or has failed
(`Download.Tally`). Every answer keeps the tally as long as each put it makes is safe
(`Download.tally_step`), so a download that succeeds is complete, one that fails has only added
chunks of its manifest, and another attempt asks for none of these again
(`download_multi_complete`).
-/

namespace Np2ptp

open Lib

section

variable [Blake3] {d : Disk} {s : Store}

/-! ## What is missing -/

/-- Looking for the listed chunks reads the index at most, so what the handle serves stays; what is
not listed as missing was reported, and what is missing was not. -/
theorem Store.missing_spec (hd : d.Sound) : ∀ (chunks : List ChunkRef) {s : Store} (i : Nat),
    s.Sound d →
    (Store.missing d s i chunks).2.Sound d ∧
      (∀ h, s.Serves d h → (Store.missing d s i chunks).2.Serves d h) ∧
      (∀ p ∈ (Store.missing d s i chunks).1, (s.has d p.2).1 = false) ∧
      (∀ c ∈ chunks, (s.has d c.hash).1 = true ∨
        ∃ j, (j, c.hash) ∈ (Store.missing d s i chunks).1) ∧
      (Store.missing d s i chunks).1.length ≤ chunks.length
  | [], s, i, hs => ⟨hs, fun _ h => h, by simp [Store.missing], by simp, by simp [Store.missing]⟩
  | c :: chunks, s, i, hs => by
    have hs' := Store.has_sound hd hs c.hash
    have hhas := Store.has_has d s c.hash
    obtain ⟨hsound, hstill, hnot, hall, hlen⟩ := Store.missing_spec hd chunks (i + 1) hs'
    rw [Store.missing]
    dsimp only
    refine ⟨hsound, fun h hserved => hstill h (hserved.has hd hs c.hash), fun p hp => ?_, ?_, ?_⟩
    · rw [← hhas]
      split at hp
      · exact hnot p hp
      · next hc =>
        rcases List.mem_cons.mp hp with rfl | hp
        · rw [hhas]
          exact Bool.eq_false_iff.mpr hc
        · exact hnot p hp
    · intro c' hc'
      rcases List.mem_cons.mp hc' with rfl | hc'
      · by_cases hc : (s.has d c'.hash).1 = true
        · exact .inl hc
        · rw [if_neg hc]
          exact .inr ⟨i, List.mem_cons_self⟩
      · rcases hall c' hc' with hheld | ⟨j, hj⟩
        · exact .inl ((hhas _).symm.trans hheld)
        · refine .inr ⟨j, ?_⟩
          split
          · exact hj
          · exact List.mem_cons_of_mem _ hj
    · split
      · exact hlen.trans (Nat.le_succ _)
      · exact Nat.succ_le_succ hlen

/-! ## The tally -/

variable {Peer : Type}

/-- The calls of `on_progress` count up by one, out of the number of chunks. -/
def Rising (m : Manifest) (progress : List (Nat × Nat)) : Prop :=
  ∃ first, progress = (List.range' first progress.length).map fun done => (done, m.chunks.length)

/-- The account of a download in progress. -/
structure Fetching.Tally (d : Disk) (s : Store) (progress : List (Nat × Nat))
    (f : Fetching Peer) : Prop where
  /-- Every listed chunk is there or still to come, unless one has failed. -/
  accounted : ∀ h ∈ f.manifest.hashes, s.Serves d h ∨ f.firstFailure ≠ none ∨
    ∃ t ∈ f.pending, t.hash = h
  counted : f.firstFailure = none → f.done + f.pending.length = f.manifest.chunks.length
  logged : ∃ first n, f.done = first + n ∧
    progress = (List.range' first (n + 1)).map fun done => (done, f.manifest.chunks.length)

/-- The account once the manifest `m` is accepted. -/
def Phase.Tally (d : Disk) (s : Store) (m : Manifest) (progress : List (Nat × Nat)) :
    Phase Peer → Prop
  | .manifest _ => False
  | .fetching f => f.manifest = m ∧ f.Tally d s progress
  | .returned (.ok r) _ => r = m ∧ (∀ h ∈ m.hashes, s.Serves d h) ∧
      progress.getLast? = some (m.chunks.length, m.chunks.length)
  | .returned (.error _) _ => True

/-- What a download has done since it began on the directory `d₀` with the handle `s₀`. -/
structure Download.Tally (d₀ : Disk) (s₀ : Store) (m : Manifest) (st : Download Peer)
    (stored : List Bytes) : Prop where
  gathered : Store.Gathered d₀ s₀ m.hashes st.disk st.store stored
  rising : Rising m st.progress
  phase : st.phase.Tally st.disk st.store m st.progress

/-- The puts that an answer makes are safe. -/
def Download.PutsSafely (st : Download Peer) (a : Answered) : Prop :=
  ∀ bytes, st.brought a = some bytes → st.store.PutSafe st.disk bytes

/-- The bytes that an answer brings and that are stored. -/
def Download.stores (st : Download Peer) (a : Answered) : Option Bytes :=
  (st.brought a).filter fun bytes => (st.store.put st.disk bytes).1.isOk

theorem Download.stores_of_not {st : Download Peer} {a : Answered} (h : st.brought a = none) :
    st.stores a = none := by
  rw [Download.stores, h, Option.filter_none]

theorem Download.stores_of_error {st : Download Peer} {a : Answered} {bytes : Bytes}
    {e : StoreError} (h : st.brought a = some bytes)
    (he : (st.store.put st.disk bytes).1 = .error e) : st.stores a = none := by
  rw [Download.stores, h, Option.filter_some, he]
  rfl

theorem Download.stores_of_ok {st : Download Peer} {a : Answered} {bytes : Bytes} {r : Hash × Bool}
    (h : st.brought a = some bytes) (hr : (st.store.put st.disk bytes).1 = .ok r) :
    st.stores a = some bytes := by
  rw [Download.stores, h, Option.filter_some, hr]
  rfl

theorem Fetching.Tally.rising {progress : List (Nat × Nat)} {f : Fetching Peer}
    (h : f.Tally d s progress) : Rising f.manifest progress := by
  obtain ⟨first, n, -, rfl⟩ := h.logged
  exact ⟨first, by simp⟩

/-- When nothing is pending the account is closed. -/
theorem Fetching.Tally.poll {progress : List (Nat × Nat)} {f : Fetching Peer}
    (h : f.Tally d s progress) : f.poll.Tally d s f.manifest progress := by
  rcases Fetching.poll_cases f with ⟨he, -⟩ | ⟨hnone, ⟨e, -, he⟩ | ⟨hf, he⟩⟩
  · rw [he]
    refine ⟨rfl, fun g hg => ?_, ?_, h.logged⟩
    · rw [Fetching.pending_refill]
      exact h.accounted g hg
    · rw [Fetching.pending_refill]
      exact h.counted
  · rw [he]
    trivial
  · rw [he]
    refine ⟨rfl, fun g hg => ?_, ?_⟩
    · rcases h.accounted g hg with hserved | hfailed | ⟨t, ht, -⟩
      · exact hserved
      · exact absurd hf hfailed
      · rw [hnone] at ht
        cases ht
    · obtain ⟨first, n, hdone, rfl⟩ := h.logged
      have htotal := h.counted hf
      rw [hnone, List.length_nil, Nat.add_zero, hdone] at htotal
      rw [List.range'_concat, List.map_append, List.map_singleton, List.getLast?_concat,
        Nat.one_mul, htotal]

variable {d₀ : Disk} {s₀ : Store} {m : Manifest}

/-- The manifest is accepted: what is not missing is there. -/
theorem Download.tally_begin {st : Download Peer} (hd : st.disk.Sound)
    (ho : st.disk.ObjectsIntact) (hs : st.store.Sound st.disk) (hl : st.disk.LinesRead)
    (hread : ∀ h, (st.store.has st.disk h).1 = true → st.store.Reads st.disk h)
    (hprogress : st.progress = []) :
    Download.Tally st.disk st.store m (st.begin m) [] := by
  obtain ⟨hsound, hserves, hnot, hall, hlen⟩ := Store.missing_spec hd m.chunks 0 hs
  have hslots : (fetchesOf (Store.missing st.disk st.store 0 m.chunks).1).length =
      (Store.missing st.disk st.store 0 m.chunks).1.length := List.length_mapIdx
  have htally : @Fetching.Tally _ Peer st.disk (Store.missing st.disk st.store 0 m.chunks).2
      (st.begin m).progress
      ⟨m, fetchesOf (Store.missing st.disk st.store 0 m.chunks).1, [],
        m.chunks.length - (Store.missing st.disk st.store 0 m.chunks).1.length, ∅, none⟩ := by
    refine ⟨fun h hh => ?_, fun _ => ?_, ?_⟩
    · obtain ⟨c, hc, rfl⟩ := List.mem_map.mp hh
      rcases hall c hc with hheld | ⟨j, hj⟩
      · exact .inl (hserves _ ((Store.reads_iff hd ho hs hl).mp (hread _ hheld)))
      · obtain ⟨slot, hslot, hget⟩ := List.mem_iff_getElem.mp hj
        refine .inr (.inr ⟨_, List.mem_mapIdx.mpr ⟨slot, hslot, rfl⟩, ?_⟩)
        dsimp only
        rw [hget]
    · show _ + List.length ([] ++ fetchesOf _) = _
      rw [List.nil_append, hslots]
      dsimp only
      omega
    · refine ⟨_, 0, rfl, ?_⟩
      show st.progress ++ _ = _
      rw [hprogress]
      rfl
  exact ⟨⟨hd, ho, hsound, hl, .refl _ _, hserves, by simp, by simp⟩, htally.rising, htally.poll⟩

/-! ## One answer -/

omit [Blake3] in
/-- Of a pending fetch that has ended, the account of the others. -/
theorem Fetching.accounted_without {f : Fetching Peer} {slot : Nat} {t : Fetch} {n : Nat}
    (hfits : f.Fits n) (ht : f.InFlight slot t) {h : Hash}
    (hpending : ∃ u ∈ f.pending, u.hash = h) :
    t.hash = h ∨ ∃ u ∈ (f.without slot).pending, u.hash = h := by
  obtain ⟨u, hu, hhash⟩ := hpending
  rcases List.mem_cons.mp ((ht.perm hfits.distinct).2.mem_iff.mp hu) with rfl | hu
  · exact .inl hhash
  · exact .inr ⟨u, hu, hhash⟩

/-- The account after the fetch in a slot has failed. -/
theorem Fetching.Tally.fail {progress : List (Nat × Nat)} {f : Fetching Peer} (slot : Nat)
    (h : f.Tally d s progress) (e : NetError) :
    ((f.without slot).fail e).Tally d s progress := by
  have hfailed : ((f.without slot).fail e).firstFailure ≠ none := by
    show f.firstFailure.or (some e) ≠ none
    cases f.firstFailure <;> simp
  exact ⟨fun g _ => .inr (.inl hfailed), fun hnone => absurd hnone hfailed, h.logged⟩

/-- The account after a fetch has asked on. -/
theorem Fetching.Tally.replace {progress : List (Nat × Nat)} {f : Fetching Peer} {slot n : Nat}
    {t t' : Fetch} (h : f.Tally d s progress) (hfits : f.Fits n) (ht : f.InFlight slot t)
    (hslot : t'.slot = slot) (hhash : t'.hash = t.hash) : (f.replace t').Tally d s progress := by
  obtain ⟨-, hperm⟩ := ht.perm hfits.distinct
  have hperm' := ht.replace_perm hfits.distinct hslot
  refine ⟨fun g hg => ?_, fun hnone => ?_, h.logged⟩
  · rcases h.accounted g hg with hserved | hfailed | hpending
    · exact .inl hserved
    · exact .inr (.inl hfailed)
    · refine .inr (.inr ?_)
      rcases Fetching.accounted_without hfits ht hpending with hthis | ⟨u, hu, hother⟩
      · exact ⟨t', hperm'.mem_iff.mpr List.mem_cons_self, hhash.trans hthis⟩
      · exact ⟨u, hperm'.mem_iff.mpr (List.mem_cons_of_mem _ hu), hother⟩
  · have hcount := h.counted hnone
    rw [hperm.length_eq, List.length_cons] at hcount
    rw [hperm'.length_eq, List.length_cons]
    exact hcount

/-- The account after a chunk has been stored. -/
theorem Fetching.Tally.store [DecidableEq Peer] {progress : List (Nat × Nat)} {f : Fetching Peer}
    {slot n : Nat} {t : Fetch} {d' : Disk} {s' : Store} (peer : Option Peer) (bytes : Bytes)
    (h : f.Tally d s progress) (hfits : f.Fits n) (ht : f.InFlight slot t)
    (hstill : ∀ g, s.Serves d g → s'.Serves d' g) (hthis : s'.Serves d' t.hash) :
    ((f.without slot).store peer bytes).Tally d' s'
      (progress ++ [(f.done + 1, f.manifest.chunks.length)]) := by
  refine ⟨fun g hg => ?_, fun hnone => ?_, ?_⟩
  · rcases h.accounted g hg with hserved | hfailed | hpending
    · exact .inl (hstill g hserved)
    · exact .inr (.inl hfailed)
    · rcases Fetching.accounted_without hfits ht hpending with rfl | hother
      · exact .inl hthis
      · exact .inr (.inr hother)
  · have hcount := h.counted hnone
    rw [(ht.perm hfits.distinct).2.length_eq, List.length_cons] at hcount
    show f.done + 1 + (f.without slot).pending.length = f.manifest.chunks.length
    omega
  · obtain ⟨first, k, hdone, rfl⟩ := h.logged
    refine ⟨first, k + 1, ?_, ?_⟩
    · show f.done + 1 = _
      omega
    · rw [List.range'_concat (n := k + 1), List.map_append, List.map_singleton, Nat.one_mul, hdone,
        Nat.add_assoc]
      rfl

variable [DecidableEq Peer] {root : Hash} {providers : List Peer}

/-- One answer is entered in the tally. -/
theorem Download.tally_step {st st' : Download Peer} {a : Answered} {stored : List Bytes}
    (hfits : st.phase.Fits providers) (h : Download.Tally d₀ s₀ m st stored)
    (hsafe : st.PutsSafely a) (hstep : st.step root providers a = some st') :
    Download.Tally d₀ s₀ m st' (stored ++ (st.stores a).toList) := by
  have hphase := h.phase
  cases Download.steps_of_step hstep with
  | accepted hp hm =>
    rw [hp] at hphase
    exact hphase.elim
  | refused hp he hrest =>
    rw [hp] at hphase
    exact hphase.elim
  | exhausted hp he =>
    rw [hp] at hphase
    exact hphase.elim
  | @next slot a f t e hp ht hno hk =>
    rw [hp] at hphase hfits
    obtain ⟨rfl, htally⟩ := hphase
    have hslot := (ht.perm hfits.2.distinct).1
    rw [Download.stores_of_not (Download.brought_of_not hp ht hno), Option.toList_none,
      List.append_nil]
    exact { h with phase := ⟨rfl, htally.replace hfits.2 ht hslot rfl⟩ }
  | @failed slot a f t e hp ht hno hk =>
    rw [hp] at hphase
    obtain ⟨rfl, htally⟩ := hphase
    rw [Download.stores_of_not (Download.brought_of_not hp ht hno), Option.toList_none,
      List.append_nil]
    exact { h with phase := (htally.fail slot e).poll }
  | @unwritten slot a f t bytes e d' s' hp ht hb hok hput =>
    rw [hp] at hphase
    obtain ⟨rfl, -⟩ := hphase
    have hbrought := Download.brought_of_ok hp ht hb hok
    have hlisted := Manifest.mem_hashes_of_chunkHashOk hok
    rw [Download.stores_of_error hbrought (by rw [hput]), Option.toList_none, List.append_nil]
    exact ⟨h.gathered.put (hsafe bytes hbrought) hput hlisted, h.rising, trivial⟩
  | @stored slot a f t bytes r d' s' hp ht hb hok hput =>
    rw [hp] at hphase hfits
    obtain ⟨rfl, htally⟩ := hphase
    have hbrought := Download.brought_of_ok hp ht hb hok
    have hlisted := Manifest.mem_hashes_of_chunkHashOk hok
    obtain ⟨c, hc, hhash⟩ := Manifest.hash_of_chunkHashOk hok
    have hsame : Hash.of bytes = t.hash := by
      obtain ⟨c', hc', hhash'⟩ := hfits.2.listed t ht.mem
      rw [hc] at hc'
      cases hc'
      rw [hhash, hhash']
    rw [Download.stores_of_ok hbrought (by rw [hput]), Option.toList_some]
    have hgathered := h.gathered.put_ok (hsafe bytes hbrought) hput hlisted
    have hthis : s'.Serves d' t.hash := by
      rw [← hsame]
      exact hgathered.held bytes (List.mem_append_right _ List.mem_cons_self)
    have htally' := htally.store (t.provider providers) bytes hfits.2 ht
      (fun g hg => hg.put h.gathered.disk h.gathered.handle (hsafe bytes hbrought) hput) hthis
    exact ⟨hgathered, htally'.rising, htally'.poll⟩

/-! ## Another attempt -/

/-- What is asked for is among what the handle did not report when the manifest was accepted. -/
def Download.Asks (d : Disk) (s : Store) (st : Download Peer) : Prop :=
  match st.phase with
  | .manifest _ => st.disk = d ∧ st.store = s
  | .fetching f => ∀ t ∈ f.pending, (s.has d t.hash).1 = false
  | .returned _ _ => True

omit [DecidableEq Peer] [Blake3] in
theorem Fetching.poll_asks {d' : Disk} {s' : Store} {progress : List (Nat × Nat)}
    {f : Fetching Peer} (h : ∀ t ∈ f.pending, (s.has d t.hash).1 = false) :
    Download.Asks d s ⟨d', s', progress, f.poll⟩ := by
  rcases Fetching.poll_cases f with ⟨he, -⟩ | ⟨-, ⟨e, -, he⟩ | ⟨-, he⟩⟩
  · rw [he]
    intro t ht
    rw [Fetching.pending_refill] at ht
    exact h t ht
  · rw [he]
    trivial
  · rw [he]
    trivial

theorem Download.step_asks (hd : d.Sound) (hs : s.Sound d) {st st' : Download Peer} {a : Answered}
    (h : Download.Asks d s st) (hstep : st.step root providers a = some st') :
    Download.Asks d s st' := by
  unfold Download.Asks at h
  cases Download.steps_of_step hstep with
  | accepted hp hm =>
    rw [hp] at h
    obtain ⟨rfl, rfl⟩ := h
    refine Fetching.poll_asks fun t ht => ?_
    obtain ⟨slot, hslot, rfl⟩ := List.mem_mapIdx.mp ht
    exact (Store.missing_spec hd _ 0 hs).2.2.1 _ (List.getElem_mem hslot)
  | refused hp he hrest =>
    rw [hp] at h
    exact h
  | exhausted hp he => trivial
  | @next slot a f t e hp ht hno hk =>
    rw [hp] at h
    intro u hu
    rcases Fetching.eq_or_mem_of_replace hu with rfl | hu
    · exact h t ht.mem
    · exact h u hu
  | @failed slot a f t e hp ht hno hk =>
    rw [hp] at h
    exact Fetching.poll_asks fun u hu => h u (Fetching.mem_of_without hu)
  | unwritten hp ht hb hok hput => trivial
  | @stored slot a f t bytes r d' s' hp ht hb hok hput =>
    rw [hp] at h
    exact Fetching.poll_asks fun u hu => h u (Fetching.mem_of_without hu)

/-- A download asks only for chunks that the handle did not report. -/
theorem Download.asks_missing (hd : d.Sound) (hs : s.Sound d) {answers : List Answered}
    {st : Download Peer}
    (hrun : runs (Download.step root providers) (Download.start providers d s) answers = some st)
    {f : Fetching Peer} (hf : st.phase = .fetching f) {t : Fetch} (ht : t ∈ f.pending) :
    (s.has d t.hash).1 = false := by
  have hasks : Download.Asks d s st := by
    refine runs_invariant' (I := Download.Asks d s) ?_ ?_ hrun
    · intro st a st' hI hstep
      exact Download.step_asks hd hs hI hstep
    · unfold Download.Asks Download.start
      dsimp only
      split
      · exact ⟨rfl, rfl⟩
      · next hphase =>
        split at hphase <;> cases hphase
      · trivial
  unfold Download.Asks at hasks
  rw [hf] at hasks
  exact hasks t ht

/-! ## The run -/

/-- No manifest has been accepted. -/
def Phase.Early : Phase Peer → Prop
  | .manifest _ => True
  | .fetching _ => False
  | .returned r _ => ∃ e, r = .error e

/-- The download has not touched the store, or has a tally. -/
def Download.Account (d₀ : Disk) (s₀ : Store) (st : Download Peer) (stored : List Bytes) : Prop :=
  (st.phase.Early ∧ st.disk = d₀ ∧ st.store = s₀ ∧ st.progress = [] ∧ stored = []) ∨
    ∃ m, Download.Tally d₀ s₀ m st stored

theorem Download.account_step (hd : d₀.Sound) (ho : d₀.ObjectsIntact) (hs : s₀.Sound d₀)
    (hl : d₀.LinesRead) (hread : ∀ h, (s₀.has d₀ h).1 = true → s₀.Reads d₀ h)
    {st st' : Download Peer} {a : Answered} {stored : List Bytes}
    (hfits : st.phase.Fits providers) (h : Download.Account d₀ s₀ st stored)
    (hsafe : st.PutsSafely a) (hstep : st.step root providers a = some st') :
    Download.Account d₀ s₀ st' (stored ++ (st.stores a).toList) := by
  rcases h with ⟨hearly, rfl, rfl, hprogress, rfl⟩ | ⟨m, htally⟩
  · cases Download.steps_of_step hstep with
    | accepted hp hm => exact .inr ⟨_, Download.tally_begin hd ho hs hl hread hprogress⟩
    | refused hp he hrest => exact .inl ⟨trivial, rfl, rfl, hprogress, rfl⟩
    | exhausted hp he => exact .inl ⟨⟨_, rfl⟩, rfl, rfl, hprogress, rfl⟩
    | next hp ht hno hk => rw [hp] at hearly; exact hearly.elim
    | failed hp ht hno hk => rw [hp] at hearly; exact hearly.elim
    | unwritten hp ht hb hok hput => rw [hp] at hearly; exact hearly.elim
    | stored hp ht hb hok hput => rw [hp] at hearly; exact hearly.elim
  · exact .inr ⟨m, Download.tally_step hfits htally hsafe hstep⟩

theorem Download.account_of_runs (hd : d₀.Sound) (ho : d₀.ObjectsIntact) (hs : s₀.Sound d₀)
    (hl : d₀.LinesRead) (hread : ∀ h, (s₀.has d₀ h).1 = true → s₀.Reads d₀ h)
    {answers : List Answered} {st : Download Peer}
    (hrun : runs (Download.step root providers) (Download.start providers d₀ s₀) answers = some st)
    (hsafe : Along (Download.step root providers) Download.PutsSafely
      (Download.start providers d₀ s₀) answers) :
    Download.Account d₀ s₀ st (gathered (Download.step root providers) Download.stores
      (Download.start providers d₀ s₀) answers) := by
  have hstart : (Download.start providers d₀ s₀).phase.Early := by
    show (if providers = [] then Phase.returned (.error .noProviders) ∅ else
      .manifest providers).Early
    split
    · exact ⟨_, rfl⟩
    · trivial
  have h : st.phase.Fits providers ∧ Download.Account d₀ s₀ st
      ([] ++ gathered (Download.step root providers) Download.stores
        (Download.start providers d₀ s₀) answers) := by
    refine runs_gathered (I := fun st stored =>
      st.phase.Fits providers ∧ Download.Account d₀ s₀ st stored) ?_
      ⟨Download.start_fits providers d₀ s₀, .inl ⟨hstart, rfl, rfl, rfl, rfl⟩⟩ hsafe hrun
    intro st a st' stored hI hok hstep
    exact ⟨Download.step_fits st a st' hI.1 hstep,
      Download.account_step hd ho hs hl hread hI.1 hI.2 hok hstep⟩
  exact h.2

end

section

variable [Blake3] [FastCDC] {Peer : Type} [DecidableEq Peer]

/-- A download that succeeds is complete, and one that fails has only made progress, when all the
puts on the way are safe: after any history of the directory in which what `has` reports can be
read, whatever the providers answer and in whatever order the chunks come in. -/
theorem download_multi_complete {objects : HashMap Hash Bytes} {sources : HashMap Bytes Source}
    {canonicalize : Bytes → Option Bytes} {calls : List Call} {w : World} {s : Store}
    {root : Hash} {providers : List Peer} {answers : List Answered} {st : Download Peer}
    (hobjects : ∀ g old, objects.lookup g = some old → Hash.of old = g)
    (hhistory : runs World.step ⟨Disk.fresh objects sources canonicalize, []⟩ calls = some w)
    (hs : s ∈ w.handles) (hlines : w.disk.LinesRead)
    (hread : ∀ h, (s.has w.disk h).1 = true → s.Reads w.disk h)
    (hrun : runs (Download.step root providers) (Download.start providers w.disk s) answers =
      some st)
    (hsafe : Along (Download.step root providers) Download.PutsSafely
      (Download.start providers w.disk s) answers) :
    let stored := gathered (Download.step root providers) Download.stores
      (Download.start providers w.disk s) answers
    ∃ m : Manifest,
      (∀ bytes ∈ stored, Hash.of bytes ∈ m.hashes) ∧ w.disk.Gains st.disk m.hashes ∧
      (∀ h, (s.has w.disk h).1 = true → st.store.Reads st.disk h) ∧
      Rising m st.progress ∧
      (∀ r, st.result = some (.ok r) → r = m ∧ (∀ h ∈ m.hashes, st.store.Reads st.disk h) ∧
        st.progress.getLast? = some (m.chunks.length, m.chunks.length)) ∧
      ∀ (root' : Hash) (providers' : List Peer) (answers' : List Answered) (st' : Download Peer)
        (f : Fetching Peer) (t : Fetch),
        runs (Download.step root' providers') (Download.start providers' st.disk st.store)
          answers' = some st' → st'.phase = .fetching f → t ∈ f.inFlight →
        ∀ bytes ∈ stored, t.hash ≠ Hash.of bytes := by
  intro stored
  have hw := World.sound_of_runs (World.sound_fresh hobjects) hhistory
  have hss := hw.handles s hs
  have haccount := Download.account_of_runs hw.disk hw.objects hss hlines hread hrun hsafe
  rcases haccount with ⟨hearly, hdisk, hstore, hprogress, hnone⟩ | ⟨m, htally⟩
  · refine ⟨Manifest.fromFiles [] none, ?_, ?_, ?_, ?_, ?_, ?_⟩
    · show ∀ bytes ∈ stored, _
      rw [show stored = [] from hnone]
      simp
    · rw [hdisk]
      exact .refl _ _
    · rw [hdisk, hstore]
      exact hread
    · exact ⟨0, by rw [hprogress]; rfl⟩
    · intro r hr
      obtain ⟨receipts, hp⟩ := Download.phase_of_result hr
      rw [hp] at hearly
      obtain ⟨e, he⟩ := hearly
      cases he
    · rw [show stored = [] from hnone]
      simp
  · have hg := htally.gathered
    have hreads : ∀ {h}, st.store.Serves st.disk h → st.store.Reads st.disk h :=
      (Store.reads_iff hg.disk hg.objects hg.handle hg.lines).mpr
    refine ⟨m, hg.listed, hg.gains, fun h hh => ?_, htally.rising, fun r hr => ?_, ?_⟩
    · exact hreads (hg.kept h ((Store.reads_iff hw.disk hw.objects hss hlines).mp (hread h hh)))
    · have hphase := htally.phase
      obtain ⟨receipts, hp⟩ := Download.phase_of_result hr
      rw [hp] at hphase
      obtain ⟨rfl, hserves, hlast⟩ := hphase
      exact ⟨rfl, fun h hh => hreads (hserves h hh), hlast⟩
    · intro root' providers' answers' st' f t hrun' hf ht bytes hb he
      have hfalse := Download.asks_missing hg.disk hg.handle hrun' hf
        (List.mem_append_left f.waiting ht)
      have htrue := Store.has_of_serves hg.disk hg.handle (hg.held bytes hb)
      rw [he, htrue] at hfalse
      cases hfalse

end

/-- Without references every put of less than 4 GiB is safe. -/
theorem Store.PutSafe.of_no_refs [Blake3] {d : Disk} {s : Store} {bytes : Bytes}
    (hlen : bytes.length < 2 ^ 32) (hd : d.refsTsv = []) (hs : s.refs = ∅) :
    s.PutSafe d bytes := by
  have hunread : ∀ h, s.unreadRef d h = none := by
    intro h
    rw [Store.unreadRef, hd, List.drop_nil]
    rfl
  refine ⟨hlen, .inr ⟨by rw [hs]; exact Finmap.notMem_empty, fun loc hl => ?_⟩,
    fun h loc _ hl => ?_⟩
  · rw [hunread] at hl
    cases hl
  · rw [hunread] at hl
    cases hl

theorem Store.missing_refs {d : Disk} : ∀ (chunks : List ChunkRef) (s : Store) (i : Nat),
    (Store.missing d s i chunks).2.refs = s.refs
  | [], _, _ => rfl
  | c :: chunks, s, i => by
    have hhas : (s.has d c.hash).2.refs = s.refs := by
      rcases Store.has_cases d s c.hash with ⟨-, he⟩ | ⟨-, he⟩
      · rw [he]
      · rw [he, Store.tryRefreshPackIndex, Store.refreshPackIndex]
        cases refreshTail packEntry d.index s.packIndex s.packIndexPos <;> rfl
    exact (Store.missing_refs chunks _ (i + 1)).trans hhas

/-- The run of `answersOfX` puts `x` alone, which is safe where there are no references. -/
theorem answersOfX_putsSafely [Blake3] [FastCDC] {root : Hash} {d : Disk} {s : Store}
    (hd : d.refsTsv = []) (hs : s.refs = ∅) :
    Along (Download.step root [()]) Download.PutsSafely (Download.start [()] d s) answersOfX := by
  have hfirst : ∀ a, (Download.start [()] d s).PutsSafely (.manifest a) := by
    intro a bytes hb
    cases hb
  rw [answersOfX]
  refine ⟨hfirst _, fun st hstep => ⟨fun bytes hb => ?_, fun _ _ => trivial⟩⟩
  have hrefs : st.disk.refsTsv = [] ∧ st.store.refs = ∅ := by
    cases Download.steps_of_step hstep with
    | accepted hp hm => exact ⟨hd, (Store.missing_refs _ s 0).trans hs⟩
    | refused hp he hrest => exact ⟨hd, hs⟩
    | exhausted hp he => exact ⟨hd, hs⟩
  refine .of_no_refs ?_ hrefs.1 hrefs.2
  have hx : [120] = bytes := by
    unfold Download.brought at hb
    split at hb
    · cases hb
    · next hanswer =>
      cases hanswer
      split at hb
      · split at hb
        · next hfetch =>
          cases hfetch
          split at hb
          · exact Option.some.inj hb
          · cases hb
        · cases hb
      · cases hb
  rw [← hx]
  decide

/-- What a handle returns of `x` when it has downloaded it after some calls. -/
def downloadOfX [Blake3] [FastCDC] (calls : List Call) (i : Nat) :
    Option (Option Manifest × Option (Option Bytes)) :=
  (runs World.step freshOfX calls).bind fun w => w.handles[i]?.bind fun s =>
    (runs (Download.step rootOfX [()]) (Download.start [()] w.disk s) answersOfX).map fun st =>
      (st.result.bind Except.toOption, (st.store.get st.disk digestOfX).1.toOption)

/-- A download that has an outcome is a run. -/
theorem exists_run_of_downloadOfX [Blake3] [FastCDC] {calls : List Call} {i : Nat} {m : Manifest}
    {got : Option Bytes} (h : downloadOfX calls i = some (some m, some got)) :
    ∃ w s st, runs World.step freshOfX calls = some w ∧ w.handles[i]? = some s ∧
      runs (Download.step rootOfX [()]) (Download.start [()] w.disk s) answersOfX = some st ∧
      st.result = some (.ok m) ∧ (st.store.get st.disk digestOfX).1 = .ok got := by
  obtain ⟨w, hw, h⟩ := Option.bind_eq_some_iff.mp h
  obtain ⟨s, hs, h⟩ := Option.bind_eq_some_iff.mp h
  obtain ⟨st, hst, hview⟩ := Option.map_eq_some_iff.mp h
  obtain ⟨hresult, hget⟩ := Prod.mk.inj hview
  exact ⟨w, s, st, hw, hs, hst, bind_toOption_eq_some.mp hresult, toOption_eq_some.mp hget⟩

/-- A handle on a fresh directory that has neither chunks nor references reports nothing. -/
theorem Store.has_false_of_empty [Blake3] [FastCDC] {calls : List Call} {w : World} {s : Store}
    (hw : runs World.step freshOfX calls = some w) (hs : s ∈ w.handles) (hrefs : s.refs = ∅)
    (hobjects : w.disk.objects = ∅) (hindex : w.disk.index = []) (h : Hash) :
    (s.has w.disk h).1 = false := by
  have hsound := World.sound_of_runs (World.sound_fresh (by simp)) hw
  have hiff := Store.has_iff (h := h) hsound.disk (hsound.handles s hs)
  rw [hrefs, hobjects, Disk.Indexed, hindex] at hiff
  refine Bool.eq_false_iff.mpr fun hheld => ?_
  rcases hiff.mp hheld with hr | ho | ⟨loc, hl⟩
  · exact Finmap.notMem_empty hr
  · exact Finmap.notMem_empty ho
  · simp [entries, pieces] at hl

/-- The one-byte content `x`, downloaded into a fresh store. -/
theorem download_complete_x :
    let _ := blake3OfX
    let _ := minFastCDC
    ∃ w s st m, runs World.step freshOfX [.open] = some w ∧ s ∈ w.handles ∧
      runs (Download.step rootOfX [()]) (Download.start [()] w.disk s) answersOfX = some st ∧
      st.result = some (.ok m) ∧ (∀ h ∈ m.hashes, st.store.Reads st.disk h) ∧
      st.progress.getLast? = some (m.chunks.length, m.chunks.length) := by
  have hrun : @downloadOfX blake3OfX minFastCDC [.open] 0 =
      some (some (@Manifest.fromFiles blake3OfX minFastCDC [(dataPath, [120])] none),
        some (some [120])) := by decide +kernel
  let _ := blake3OfX
  let _ := minFastCDC
  obtain ⟨w, s, st, hw, hs, hst, hresult, -⟩ := exists_run_of_downloadOfX hrun
  obtain ⟨w', s', hw', hs', hrefs, hobjects, hindex, htsv⟩ : ∃ w s,
      runs World.step freshOfX [.open] = some w ∧ w.handles[0]? = some s ∧ s.refs = ∅ ∧
      w.disk.objects = ∅ ∧ w.disk.index = [] ∧ w.disk.refsTsv = [] :=
    ⟨_, _, rfl, rfl, rfl, rfl, rfl, rfl⟩
  rw [hw] at hw'
  cases hw'
  rw [hs] at hs'
  cases hs'
  have hmem := List.mem_of_getElem? hs
  have hnone := Store.has_false_of_empty hw hmem hrefs hobjects hindex
  obtain ⟨m, -, -, -, -, hok, -⟩ := download_multi_complete (by simp) hw hmem
    (by rw [Disk.LinesRead, hindex]; simp [entries, pieces])
    (fun h hheld => by rw [hnone h] at hheld; cases hheld) hst
    (answersOfX_putsSafely htsv hrefs)
  obtain ⟨rfl, hreads, hlast⟩ := hok _ hresult
  exact ⟨w, s, st, _, hw, hmem, hst, hresult, hreads, hlast⟩

/-- A dead reference breaks it: another handle has referenced the file `/f` with the one byte `x`,
and the file is gone. This handle reports no chunk; the download succeeds, and `get` does not find
the chunk. -/
theorem download_takes_dead_reference :
    let _ := blake3OfX
    let _ := minFastCDC
    ∃ w s st m, runs World.step freshOfX
        [.open, .open, .ingestFileStreaming 0 [47, 102] true, .edit ∅ some] = some w ∧
      s ∈ w.handles ∧ (∀ h, (s.has w.disk h).1 = false) ∧
      runs (Download.step rootOfX [()]) (Download.start [()] w.disk s) answersOfX = some st ∧
      st.result = some (.ok m) ∧ digestOfX ∈ m.hashes ∧
      (st.store.get st.disk digestOfX).1 = .ok none := by
  have hrun : @downloadOfX blake3OfX minFastCDC
      [.open, .open, .ingestFileStreaming 0 [47, 102] true, .edit ∅ some] 1 =
      some (some (@Manifest.fromFiles blake3OfX minFastCDC [(dataPath, [120])] none),
        some none) := by decide +kernel
  have hlisted : digestOfX ∈
      (@Manifest.fromFiles blake3OfX minFastCDC [(dataPath, [120])] none).hashes := by
    decide +kernel
  let _ := blake3OfX
  let _ := minFastCDC
  obtain ⟨w, s, st, hw, hs, hst, hresult, hget⟩ := exists_run_of_downloadOfX hrun
  obtain ⟨w', s', hw', hs', hrefs, hobjects, hindex⟩ : ∃ w s, runs World.step freshOfX
        [.open, .open, .ingestFileStreaming 0 [47, 102] true, .edit ∅ some] = some w ∧
      w.handles[1]? = some s ∧ s.refs = ∅ ∧ w.disk.objects = ∅ ∧ w.disk.index = [] :=
    ⟨_, _, rfl, rfl, rfl, rfl, rfl⟩
  rw [hw] at hw'
  cases hw'
  rw [hs] at hs'
  cases hs'
  have hmem := List.mem_of_getElem? hs
  exact ⟨w, s, st, _, hw, hmem, Store.has_false_of_empty hw hmem hrefs hobjects hindex, hst,
    hresult, hlisted, hget⟩

end Np2ptp
