import Np2ptp.Net.Acknowledge
import Np2ptp.Net.Progress

/-!
# The requests of a download

Which chunks `download_multi` asks for, counted over a run in which every provider answers
correctly. The list of what is missing is made once, position by position, and nothing looks at it
or at the store again before a request is sent. So what is asked for is that list, in order, as far
as the window of `PARALLEL` requests has got (`Fetching.Asked.eq_take`); a hash that is missing at
two positions is asked for twice (`download_multi_requests`).
-/

namespace Np2ptp

open Lib

/-! ## What is missing -/

/-- The listed hashes that the store does not report, as often as they are listed. -/
def Manifest.missing (m : Manifest) (d : Disk) (s : Store) : List Hash :=
  m.hashes.filter fun h => !(s.has d h).1

/-- The positions that are missing are those of the hashes that were not reported at the start. -/
theorem Store.missing_hashes (d : Disk) : ∀ (chunks : List ChunkRef) (s : Store) (i : Nat),
    (Store.missing d s i chunks).1.map Prod.snd =
      (chunks.map ChunkRef.hash).filter fun h => !(s.has d h).1 := by
  intro chunks
  induction chunks with
  | nil => exact fun _ _ => rfl
  | cons c chunks ih =>
    intro s i
    have hrest := ih (s.has d c.hash).2 (i + 1)
    simp only [Store.has_has] at hrest
    rw [Store.missing, List.map_cons]
    dsimp only
    cases hc : (s.has d c.hash).1 with
    | true =>
      rw [if_pos rfl, hrest, List.filter_cons_of_neg (by simp [hc])]
    | false =>
      rw [if_neg Bool.false_ne_true, List.map_cons, hrest,
        List.filter_cons_of_pos (by simp [hc])]

theorem fetchesOf_hashes (missing : List (Nat × Hash)) :
    (fetchesOf missing).map Fetch.hash = missing.map Prod.snd := by
  refine List.ext_getElem? fun i => ?_
  rw [fetchesOf, List.getElem?_map, List.getElem?_mapIdx, List.getElem?_map]
  cases missing[i]? <;> rfl

/-! ## What is requested -/

section

variable {Peer : Type}

/-- The fetches that wait for an answer. -/
def Phase.awaits : Phase Peer → List Fetch
  | .fetching f => f.inFlight
  | _ => []

/-- The chunks that are requested as one phase follows another: a request is sent for every fetch
that waits for an answer which it did not wait for before. -/
def Phase.requested (before after : Phase Peer) : List Hash :=
  (after.awaits.filter fun t => decide (t ∉ before.awaits)).map Fetch.hash

/-- The window of requests over the missing chunks, of which `n` have been stored. -/
structure Fetching.Asked (missing requests : List Hash) (n : Nat) (f : Fetching Peer) : Prop where
  order : requests ++ f.waiting.map Fetch.hash = missing
  counted : requests.length = f.inFlight.length + n
  room : f.inFlight.length ≤ PARALLEL
  full : f.waiting = [] ∨ f.inFlight.length = PARALLEL

/-- The requests of a phase; `all` stands for a reason why none can be left out. -/
def Phase.Asked (all : Prop) (missing requests : List Hash) (n : Nat) : Phase Peer → Prop
  | .manifest _ => False
  | .fetching f => f.Asked missing requests n
  | .returned _ _ => requests = missing.take (PARALLEL + n) ∧ (all → requests = missing)

/-- What is requested is the front of what is missing, as far as the window has got. -/
theorem Fetching.Asked.eq_take {missing requests : List Hash} {n : Nat} {f : Fetching Peer}
    (h : f.Asked missing requests n) : requests = missing.take (PARALLEL + n) := by
  obtain ⟨rfl, hcounted, hroom, hfull⟩ := h
  rcases hfull with hnone | hfull
  · rw [hnone, List.map_nil, List.append_nil, List.take_of_length_le (by omega)]
  · rw [List.take_left' (by omega)]

/-- A poll requests the chunks that there is room for. -/
theorem Fetching.requested_poll {before : Phase Peer} {g : Fetching Peer}
    (hold : ∀ t ∈ g.inFlight, t ∈ before.awaits) (hnew : ∀ t ∈ g.waiting, t ∉ before.awaits) :
    before.requested g.poll =
      (g.waiting.take (PARALLEL - g.inFlight.length)).map Fetch.hash := by
  rcases Fetching.poll_cases g with ⟨he, -⟩ | ⟨hnone, he⟩
  · have hfirst : g.inFlight.filter (fun t => decide (t ∉ before.awaits)) = [] :=
      List.filter_eq_nil_iff.mpr fun t ht => by simpa using hold t ht
    have hsecond : (g.waiting.take (PARALLEL - g.inFlight.length)).filter
        (fun t => decide (t ∉ before.awaits)) = g.waiting.take (PARALLEL - g.inFlight.length) :=
      List.filter_eq_self.mpr fun t ht => by simpa using hnew t (List.mem_of_mem_take ht)
    rw [he, Phase.requested, Phase.awaits, Fetching.refill]
    dsimp only
    rw [List.filter_append, hfirst, hsecond, List.nil_append]
  · have hwaiting : g.waiting = [] := (List.append_eq_nil_iff.mp hnone).2
    have hreturned : g.poll.awaits = [] := by
      rcases he with ⟨e, -, he⟩ | ⟨-, he⟩
      · rw [he]
        rfl
      · rw [he]
        rfl
    rw [Phase.requested, hreturned, hwaiting, List.take_nil]
    rfl

/-- A poll fills the window. -/
theorem Fetching.asked_poll {all : Prop} {missing : List Hash} {n : Nat} (requests : List Hash)
    {g : Fetching Peer} (horder : requests ++ g.waiting.map Fetch.hash = missing)
    (hcounted : requests.length = g.inFlight.length + n) (hroom : g.inFlight.length ≤ PARALLEL) :
    g.poll.Asked all missing
      (requests ++ (g.waiting.take (PARALLEL - g.inFlight.length)).map Fetch.hash) n := by
  rcases Fetching.poll_cases g with ⟨he, -⟩ | ⟨hnone, he⟩
  · rw [he]
    unfold Fetching.refill
    refine ⟨?_, ?_, ?_, ?_⟩
    · rw [List.append_assoc, ← List.map_append, List.take_append_drop, horder]
    · dsimp only
      rw [List.length_append, List.length_append, List.length_map, hcounted]
      omega
    · dsimp only
      rw [List.length_append, List.length_take]
      omega
    · dsimp only
      rw [List.drop_eq_nil_iff, List.length_append, List.length_take]
      omega
  · obtain ⟨hinFlight, hwaiting⟩ := List.append_eq_nil_iff.mp hnone
    rw [hwaiting, List.map_nil, List.append_nil] at horder
    rw [hinFlight, List.length_nil, Nat.zero_add] at hcounted
    have hall : requests = missing.take (PARALLEL + n) := by
      rw [← horder, List.take_of_length_le (by omega)]
    rw [hwaiting, List.take_nil, List.map_nil, List.append_nil]
    rcases he with ⟨e, -, he⟩ | ⟨-, he⟩
    · rw [he]
      exact ⟨hall, fun _ => horder⟩
    · rw [he]
      exact ⟨hall, fun _ => horder⟩

/-! ## One answer -/

variable [Blake3] [DecidableEq Peer]

/-- The chunks that are requested when an answer comes in. -/
def Download.requested (root : Hash) (providers : List Peer) (st : Download Peer) (a : Answered) :
    List Hash :=
  match st.step root providers a with
  | none => []
  | some st' => st.phase.requested st'.phase

/-- The chunks that a run requests, in order. -/
def Download.requests (root : Hash) (providers : List Peer) (st : Download Peer)
    (answers : List Answered) : List Hash :=
  (gathered (Download.step root providers) (fun st a => some (st.requested root providers a)) st
    answers).flatten

/-- The answer to a request for a chunk is the chunk. -/
def Download.AnsweredRight (st : Download Peer) : Answered → Prop
  | .manifest _ => True
  | .chunk slot a => ∀ f t, st.phase = .fetching f → f.InFlight slot t →
      a.Serves f.manifest t.index

instance (m : Manifest) (index : Nat) (a : Answer) : Decidable (a.Serves m index) :=
  match h : fetchChunk a with
  | .ok (some bytes) => decidable_of_iff (m.chunkHashOk index bytes = true)
      ⟨fun hok => ⟨bytes, h, hok⟩, by
        rintro ⟨other, hb, hok⟩
        rw [h] at hb
        cases hb
        exact hok⟩
  | .ok none => .isFalse (by
      rintro ⟨other, hb, -⟩
      rw [h] at hb
      cases hb)
  | .error _ => .isFalse (by
      rintro ⟨other, hb, -⟩
      rw [h] at hb
      cases hb)

instance (st : Download Peer) (a : Answered) : Decidable (st.AnsweredRight a) :=
  match a with
  | .manifest _ => .isTrue trivial
  | .chunk slot a =>
    match hp : st.phase with
    | .fetching f => decidable_of_iff
        (∀ t ∈ f.inFlight.find? fun u : Fetch => decide (u.slot = slot),
          a.Serves f.manifest t.index) (by
          constructor
          · intro h f' t hp' ht
            rw [hp] at hp'
            cases hp'
            exact h t ht
          · exact fun h t ht => h f t hp ht)
    | .manifest _ => .isTrue (by
        intro f t hf
        rw [hp] at hf
        cases hf)
    | .returned _ _ => .isTrue (by
        intro f t hf
        rw [hp] at hf
        cases hf)

omit [Blake3] [DecidableEq Peer] in
/-- The window after a fetch has ended. -/
theorem Fetching.Asked.without {all : Prop} {missing requests : List Hash} {n k : Nat}
    {f g : Fetching Peer} {slot : Nat} {t : Fetch} (h : f.Asked missing requests n)
    (hfits : f.Fits k) (ht : f.InFlight slot t) (hinFlight : g.inFlight = (f.without slot).inFlight)
    (hwaiting : g.waiting = f.waiting) :
    g.poll.Asked all missing (requests ++ (Phase.fetching f).requested g.poll) (n + 1) := by
  have hperm := (ht.perm hfits.distinct).2
  have hlength : (f.without slot).inFlight.length + 1 = f.inFlight.length := by
    have hlen := hperm.length_eq
    simp only [Fetching.pending, List.length_append, List.length_cons] at hlen
    have hsame : (f.without slot).waiting.length = f.waiting.length := rfl
    omega
  have hdistinct := hfits.distinct
  rw [Fetching.pending, List.map_append] at hdistinct
  rw [Fetching.requested_poll]
  · refine Fetching.asked_poll requests ?_ ?_ ?_
    · rw [hwaiting]
      exact h.order
    · rw [hinFlight, h.counted]
      omega
    · rw [hinFlight]
      have := h.room
      omega
  · rw [hinFlight]
    exact fun u hu => (List.mem_filter.mp hu).1
  · rw [hwaiting]
    intro u hu hflying
    exact (List.disjoint_of_nodup_append hdistinct) (List.mem_map_of_mem hflying)
      (List.mem_map_of_mem hu)

variable {root : Hash} {providers : List Peer}

/-- One right answer moves the window by the chunk that it brings. -/
theorem Download.step_asked {all : Prop} {missing requests : List Hash} {n : Nat}
    {st st' : Download Peer} {a : Answered} (hfits : st.phase.Fits providers)
    (h : st.phase.Asked all missing requests n) (hright : st.AnsweredRight a)
    (hall : all → st.Writes a) (hstep : st.step root providers a = some st') :
    st'.phase.Asked all missing (requests ++ st.requested root providers a)
      (n + (st.stores a).toList.length) := by
  rw [Download.requested, hstep]
  dsimp only
  cases Download.steps_of_step hstep with
  | accepted hp hm =>
    rw [hp] at h
    exact h.elim
  | refused hp he hrest =>
    rw [hp] at h
    exact h.elim
  | exhausted hp he =>
    rw [hp] at h
    exact h.elim
  | next hp ht hno hk => exact absurd (hright _ _ hp ht) hno
  | failed hp ht hno hk => exact absurd (hright _ _ hp ht) hno
  | unwritten hp ht hb hok hput =>
    have hbrought := Download.brought_of_ok hp ht hb hok
    rw [hp] at h
    rw [Download.stores_of_error hbrought (by rw [hput])]
    show requests ++ [] = missing.take (PARALLEL + n) ∧ (all → requests ++ [] = missing)
    rw [List.append_nil]
    refine ⟨h.eq_take, fun ha => ?_⟩
    have hwrites := hall ha _ hbrought
    rw [hput] at hwrites
    cases hwrites
  | stored hp ht hb hok hput =>
    rw [Download.stores_of_ok (Download.brought_of_ok hp ht hb hok) (by rw [hput])]
    rw [hp] at h hfits ⊢
    exact h.without hfits.2 ht rfl rfl

omit [Blake3] [DecidableEq Peer] in
/-- The manifest is accepted: the window is opened on what is missing. -/
theorem Download.begin_asked {all : Prop} {st : Download Peer} {m : Manifest}
    (hp : st.phase.awaits = []) : (st.begin m).phase.Asked all (m.missing st.disk st.store)
      (st.phase.requested (st.begin m).phase) 0 := by
  have hmissing : (fetchesOf (Store.missing st.disk st.store 0 m.chunks).1).map Fetch.hash =
      m.missing st.disk st.store := by
    rw [fetchesOf_hashes, Store.missing_hashes]
    rfl
  rw [Download.begin]
  dsimp only
  rw [Fetching.requested_poll (fun t ht => by cases ht) (fun t _ => by rw [hp]; simp)]
  exact Fetching.asked_poll [] hmissing rfl (Nat.zero_le _)

/-! ## The run -/

omit [Blake3] [DecidableEq Peer] in
theorem Fetching.poll_ne_manifest (f : Fetching Peer) (ps : List Peer) :
    f.poll ≠ .manifest ps := by
  rcases Fetching.poll_cases f with ⟨he, -⟩ | ⟨-, ⟨e, -, he⟩ | ⟨-, he⟩⟩
  · rw [he]
    exact nofun
  · rw [he]
    exact nofun
  · rw [he]
    exact nofun

/-- A download that waits for the manifest has waited for it before. -/
theorem Download.early_of_step {st st' : Download Peer} {a : Answered} {ps : List Peer}
    (hstep : st.step root providers a = some st') (hp : st'.phase = .manifest ps) :
    (∃ ps, st.phase = .manifest ps) ∧ st'.disk = st.disk ∧ st'.store = st.store ∧
      st.requested root providers a = [] ∧ st.stores a = none := by
  rw [Download.requested, hstep]
  dsimp only
  cases Download.steps_of_step hstep with
  | accepted hm => exact absurd hp (Fetching.poll_ne_manifest _ _)
  | refused hm he hrest => exact ⟨⟨_, hm⟩, rfl, rfl, rfl, rfl⟩
  | exhausted hm => cases hp
  | next => cases hp
  | failed => exact absurd hp (Fetching.poll_ne_manifest _ _)
  | unwritten => cases hp
  | stored => exact absurd hp (Fetching.poll_ne_manifest _ _)

/-- A download that waits for the manifest has asked for no chunk, and left the store alone. -/
theorem Download.early_of_runs {d : Disk} {s : Store} {answers : List Answered}
    {st : Download Peer}
    (hrun : runs (Download.step root providers) (Download.start providers d s) answers = some st)
    {ps : List Peer} (hp : st.phase = .manifest ps) : st.disk = d ∧ st.store = s ∧
      Download.requests root providers (Download.start providers d s) answers = [] ∧
      gathered (Download.step root providers) Download.stores (Download.start providers d s)
        answers = [] := by
  have halong : Along (Download.step root providers) (fun _ _ => True)
      (Download.start providers d s) answers := along_of_forall (fun _ _ => trivial) _ _
  have hrequests : ∀ ps, st.phase = .manifest ps → st.disk = d ∧ st.store = s ∧
      ([] ++ gathered (Download.step root providers)
        (fun st a => some (st.requested root providers a)) (Download.start providers d s)
        answers).flatten = [] := by
    refine runs_gathered (I := fun (st : Download Peer) requests => ∀ ps,
      st.phase = .manifest ps → st.disk = d ∧ st.store = s ∧ requests.flatten = [])
      ?_ (fun _ _ => ⟨rfl, rfl, rfl⟩) halong hrun
    intro st a st' requests h _ hstep ps hp
    obtain ⟨⟨qs, hq⟩, hdisk, hstore, hnone, -⟩ := Download.early_of_step hstep hp
    obtain ⟨rfl, rfl, hflat⟩ := h qs hq
    refine ⟨hdisk, hstore, ?_⟩
    rw [hnone, List.flatten_append, hflat]
    rfl
  have hstores : ∀ ps, st.phase = .manifest ps → [] ++ gathered (Download.step root providers)
      Download.stores (Download.start providers d s) answers = [] := by
    refine runs_gathered (I := fun (st : Download Peer) stored => ∀ ps,
      st.phase = .manifest ps → stored = []) ?_ (fun _ _ => rfl) halong hrun
    intro st a st' stored h _ hstep ps hp
    obtain ⟨⟨qs, hq⟩, -, -, -, hnone⟩ := Download.early_of_step hstep hp
    rw [h qs hq, hnone]
    rfl
  obtain ⟨hdisk, hstore, hflat⟩ := hrequests ps hp
  exact ⟨hdisk, hstore, hflat, hstores ps hp⟩

/-- A run of right answers moves the window by the chunks that it stores. -/
theorem Download.asked_of_runs {all : Prop} {missing requests : List Hash} {n : Nat}
    {answers : List Answered} {st st' : Download Peer} (hfits : st.phase.Fits providers)
    (h : st.phase.Asked all missing requests n)
    (hok : Along (Download.step root providers)
      (fun st a => st.AnsweredRight a ∧ (all → st.Writes a)) st answers)
    (hrun : runs (Download.step root providers) st answers = some st') :
    st'.phase.Asked all missing (requests ++ Download.requests root providers st answers)
      (n + (gathered (Download.step root providers) Download.stores st answers).length) := by
  let give (st : Download Peer) (a : Answered) : Option (List Hash × Option Bytes) :=
    some (st.requested root providers a, st.stores a)
  have hrequests : gathered (Download.step root providers)
      (fun st a => some (st.requested root providers a)) st answers =
      (gathered (Download.step root providers) give st answers).filterMap fun r => some r.1 :=
    gathered_filterMap give (fun r => some r.1) answers st
  have hstores : gathered (Download.step root providers) Download.stores st answers =
      (gathered (Download.step root providers) give st answers).filterMap Prod.snd :=
    gathered_filterMap give Prod.snd answers st
  rw [Download.requests, hrequests, hstores]
  let I (st : Download Peer) (bs : List (List Hash × Option Bytes)) : Prop :=
    st.phase.Fits providers ∧
      st.phase.Asked all missing (requests ++ (bs.filterMap fun r => some r.1).flatten)
        (n + (bs.filterMap Prod.snd).length)
  have hend : I st' ([] ++ gathered (Download.step root providers) give st answers) := by
    refine runs_gathered ?_ ⟨hfits, ?_⟩ hok hrun
    · rintro st a st' bs ⟨hfits, h⟩ ⟨hright, hall⟩ hstep
      refine ⟨Download.step_fits st a st' hfits hstep, ?_⟩
      have hone : (List.filterMap (fun r : List Hash × Option Bytes => some r.1)
          [(st.requested root providers a, st.stores a)]).flatten =
          st.requested root providers a := List.append_nil _
      have hcount : (List.filterMap Prod.snd
          [(st.requested root providers a, st.stores a)]).length =
          (st.stores a).toList.length := by
        cases st.stores a <;> simp
      rw [Option.toList_some, List.filterMap_append, List.filterMap_append, List.flatten_append,
        List.length_append, ← List.append_assoc, ← Nat.add_assoc, hone, hcount]
      exact Download.step_asked hfits h hright hall hstep
    · simpa using h
  exact hend.2

omit [Blake3] [DecidableEq Peer] in
/-- What is asked for from a list is asked for once each if and only if nothing occurs twice among
it and nothing is left out. -/
theorem count_eq_one_iff {asked missing : List Hash} (hsub : ∀ h ∈ asked, h ∈ missing) :
    (∀ h ∈ missing, asked.count h = 1) ↔ asked.Nodup ∧ ∀ h ∈ missing, h ∈ asked := by
  constructor
  · intro h
    refine ⟨List.nodup_iff_count_le_one.mpr fun g => ?_, fun g hg => ?_⟩
    · by_cases hg : g ∈ asked
      · exact Nat.le_of_eq (h g (hsub g hg))
      · rw [List.count_eq_zero_of_not_mem hg]
        exact Nat.zero_le _
    · exact List.count_pos_iff.mp (by rw [h g hg]; exact Nat.zero_lt_one)
  · rintro ⟨hnodup, hall⟩ h hh
    exact List.count_eq_one_of_mem hnodup (hall h hh)

/-- Identical chunks are requested once if and only if no hash is listed twice among what is
missing, where every chunk can be stored. In general the first positions that are missing are asked
for, `PARALLEL` and one more for each chunk stored, whatever their hashes are. -/
theorem download_multi_requests {d : Disk} {s : Store} {pre post : List Answered} {a : Answer}
    {m : Manifest} {st : Download Peer}
    (hrun : runs (Download.step root providers) (Download.start providers d s)
      (pre ++ .manifest a :: post) = some st)
    (hm : getManifest root a = .ok m)
    (hright : Along (Download.step root providers) Download.AnsweredRight
      (Download.start providers d s) (pre ++ .manifest a :: post))
    (hreturned : st.result ≠ none) :
    let requests := Download.requests root providers (Download.start providers d s)
      (pre ++ .manifest a :: post)
    let stored := gathered (Download.step root providers) Download.stores
      (Download.start providers d s) (pre ++ .manifest a :: post)
    let missing := m.missing d s
    let asked := missing.take (PARALLEL + stored.length)
    requests = asked ∧
      ((∀ h ∈ missing, requests.count h = 1) ↔ asked.Nodup ∧ ∀ h ∈ missing, h ∈ asked) ∧
      (Along (Download.step root providers) Download.Writes (Download.start providers d s)
        (pre ++ .manifest a :: post) → asked = missing) := by
  intro requests stored missing asked
  obtain ⟨t, hpre, hpost⟩ := runs_append.mp hrun
  obtain ⟨t', hstep, hrest⟩ := runs_cons.mp hpost
  obtain ⟨p, rest, hp, rfl⟩ : ∃ p rest, t.phase = .manifest (p :: rest) ∧ t' = t.begin m := by
    cases Download.steps_of_step hstep with
    | accepted hp hm' =>
      rw [hm] at hm'
      cases hm'
      exact ⟨_, _, hp, rfl⟩
    | refused hp he => rw [hm] at he; cases he
    | exhausted hp he => rw [hm] at he; cases he
  obtain ⟨hdisk, hstore, hnone, hstored⟩ := Download.early_of_runs hpre hp
  have hfits : (t.begin m).phase.Fits providers :=
    Download.step_fits t _ _
      (runs_invariant' (I := fun st : Download Peer => st.phase.Fits providers)
        Download.step_fits (Download.start_fits providers d s) hpre) hstep
  have hbegin (all : Prop) : (t.begin m).phase.Asked all missing
      (t.phase.requested (t.begin m).phase) 0 := by
    have hopened : (t.begin m).phase.Asked all (m.missing t.disk t.store)
      (t.phase.requested (t.begin m).phase) 0 := Download.begin_asked (by rw [hp]; rfl)
    rwa [hdisk, hstore] at hopened
  have hrequests : requests = t.phase.requested (t.begin m).phase ++
      Download.requests root providers (t.begin m) post := by
    show (gathered _ _ _ _).flatten = _
    rw [gathered_append hpre, List.flatten_append,
      show (gathered _ _ (Download.start providers d s) pre).flatten = [] from hnone,
      List.nil_append, gathered, hstep, Option.toList_some, List.singleton_append,
      List.flatten_cons, Download.requested, hstep]
    rfl
  have hcount : stored =
      gathered (Download.step root providers) Download.stores (t.begin m) post := by
    show gathered _ _ _ _ = _
    rw [gathered_append hpre, hstored, List.nil_append, gathered, hstep]
    rfl
  have hend (all : Prop) (hall : Along (Download.step root providers)
        (fun st a => all → st.Writes a) (Download.start providers d s)
        (pre ++ .manifest a :: post)) :
      requests = asked ∧ (all → requests = missing) := by
    have hok := ((hright.and hall).of_append hpre).2 _ hstep
    have hasked := Download.asked_of_runs hfits (hbegin all) hok hrest
    obtain ⟨r, hr⟩ := Option.ne_none_iff_exists'.mp hreturned
    obtain ⟨receipts, hphase⟩ := Download.phase_of_result hr
    rw [hphase, Nat.zero_add, ← hrequests, ← hcount] at hasked
    exact hasked
  have hasked : requests = asked :=
    (hend False (along_of_forall (fun _ _ h => h.elim) _ _)).1
  refine ⟨hasked, ?_, fun hwrites => ?_⟩
  · rw [hasked]
    exact count_eq_one_iff fun h hh => List.mem_of_mem_take hh
  · exact hasked.symm.trans ((hend True (hwrites.mono fun _ _ h _ => h)).2 trivial)

end

theorem getManifest_three :
    let _ := blake3OfThree
    let _ := minFastCDC
    let m := Manifest.fromFiles filesOfThree none
    getManifest rootOfThree (.ok (.manifest (some m.toNptp))) = .ok m := by
  intro _ _ m
  refine toOption_eq_some.mp ?_
  decide +kernel

/-- The right answers for the three files, the last chunk first. -/
def rightAnswersOfThree [Blake3] [FastCDC] : List Answered :=
  [.manifest (.ok (.manifest (some (Manifest.fromFiles filesOfThree none).toNptp))),
    .chunk 2 (.ok (.chunk (some [121]))), .chunk 0 (.ok (.chunk (some [120]))),
    .chunk 1 (.ok (.chunk (some [120, 120])))]

/-- Each chunk of the three files is requested once. -/
theorem requested_once_three :
    let _ := blake3OfThree
    let _ := minFastCDC
    let m := Manifest.fromFiles filesOfThree none
    let start : Download Nat := Download.start [0, 1] (Disk.fresh ∅ ∅ some) Store.fresh
    m.missing start.disk start.store = [digestOfX, digestOfXX, digestOfY] ∧
      ∀ h ∈ m.missing start.disk start.store,
        (Download.requests rootOfThree [0, 1] start rightAnswersOfThree).count h = 1 := by
  have hrun : (runs (@Download.step blake3OfThree Nat _ rootOfThree [0, 1])
      (Download.start [0, 1] (Disk.fresh ∅ ∅ some) Store.fresh)
        (@rightAnswersOfThree blake3OfThree minFastCDC)).map (fun st => st.result.isSome) =
      some true := by
    decide +kernel
  have hwrites : Along (@Download.step blake3OfThree Nat _ rootOfThree [0, 1])
      (@Download.Writes Nat blake3OfThree)
      (Download.start [0, 1] (Disk.fresh ∅ ∅ some) Store.fresh)
        (@rightAnswersOfThree blake3OfThree minFastCDC) := by
    decide +kernel
  have hright : Along (@Download.step blake3OfThree Nat _ rootOfThree [0, 1])
      (@Download.AnsweredRight Nat blake3OfThree)
      (Download.start [0, 1] (Disk.fresh ∅ ∅ some) Store.fresh)
        (@rightAnswersOfThree blake3OfThree minFastCDC) := by
    decide +kernel
  have hmissing : (@Manifest.fromFiles blake3OfThree minFastCDC filesOfThree none).missing
      (Disk.fresh ∅ ∅ some) Store.fresh = [digestOfX, digestOfXX, digestOfY] := by
    decide +kernel
  intro _ _ m start
  obtain ⟨st, hst, hresult⟩ := Option.map_eq_some_iff.mp hrun
  obtain ⟨-, hiff, hall⟩ := @download_multi_requests _ _ _ _ _ _ _ [] _ _ _ _ hst
    getManifest_three hright (Option.isSome_iff_ne_none.mp hresult)
  refine ⟨hmissing, hiff.mpr ⟨?_, ?_⟩⟩
  · rw [hall hwrites, hmissing]
    decide
  · rw [hall hwrites]
    exact fun h hh => hh

/-- The answers of an honest provider of two files with the same content. -/
def answersOfXX [Blake3] [FastCDC] : List Answered :=
  [.manifest (.ok (.manifest (some (Manifest.fromFiles filesOfXX none).toNptp))),
    .chunk 0 (.ok (.chunk (some [120]))), .chunk 1 (.ok (.chunk (some [120])))]

/-- An identical chunk is requested twice: the files `a` and `b` have one content, no part of which
is in the store; all answers are right, and the download succeeds. -/
theorem requested_twice_xx :
    let _ := blake3OfXX
    let _ := minFastCDC
    let m := Manifest.fromFiles filesOfXX none
    ∃ st, runs (Download.step rootOfXAndX [()])
        (Download.start [()] (Disk.fresh ∅ ∅ some) Store.fresh) answersOfXX = some st ∧
      st.result.bind Except.toOption = some m ∧
      Along (Download.step rootOfXAndX [()]) Download.AnsweredRight
        (Download.start [()] (Disk.fresh ∅ ∅ some) Store.fresh) answersOfXX ∧
      digestOfX ∈ m.missing (Disk.fresh ∅ ∅ some) Store.fresh ∧
      (Download.requests rootOfXAndX [()]
        (Download.start [()] (Disk.fresh ∅ ∅ some) Store.fresh) answersOfXX).count digestOfX = 2 := by
  have hrun : (runs (@Download.step blake3OfXX Unit _ rootOfXAndX [()])
      (Download.start [()] (Disk.fresh ∅ ∅ some) Store.fresh)
        (@answersOfXX blake3OfXX minFastCDC)).map (fun st => st.result.bind Except.toOption) =
      some (some (@Manifest.fromFiles blake3OfXX minFastCDC filesOfXX none)) := by
    decide +kernel
  have hright : Along (@Download.step blake3OfXX Unit _ rootOfXAndX [()])
      (@Download.AnsweredRight Unit blake3OfXX)
      (Download.start [()] (Disk.fresh ∅ ∅ some) Store.fresh)
        (@answersOfXX blake3OfXX minFastCDC) := by
    decide +kernel
  have hmissing : digestOfX ∈ (@Manifest.fromFiles blake3OfXX minFastCDC filesOfXX none).missing
      (Disk.fresh ∅ ∅ some) Store.fresh := by
    decide +kernel
  have htwice : (@Download.requests Unit blake3OfXX _ rootOfXAndX [()]
      (Download.start [()] (Disk.fresh ∅ ∅ some) Store.fresh)
        (@answersOfXX blake3OfXX minFastCDC)).count digestOfX = 2 := by
    decide +kernel
  intro _ _ m
  obtain ⟨st, hst, hresult⟩ := Option.map_eq_some_iff.mp hrun
  exact ⟨st, hst, hresult, hright, hmissing, htwice⟩

end Np2ptp
