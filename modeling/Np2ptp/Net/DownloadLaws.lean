import Np2ptp.Net.Download
import Np2ptp.Store.HandleLaws

/-!
# What an answer does to a download

Everything a step can do is said once, as a relation with a rule for each turn of the code
(`Download.Steps`, `Download.steps_of_step`). The fetches that have not ended are `pending`, whether
they are in flight or wait for room; polling the stream only moves them, and stops when there are
none (`Fetching.poll_cases`). A download in progress always waits for an answer, and every pending
fetch is for a listed chunk and has a provider left to ask (`Download.step_fits`).
-/

namespace Np2ptp

open Lib

/-! ## One answer to a fetch -/

section

variable [Blake3]

/-- The answer is the chunk with this index. -/
def Answer.Serves (m : Manifest) (index : Nat) (a : Answer) : Prop :=
  ∃ bytes, fetchChunk a = .ok (some bytes) ∧ m.chunkHashOk index bytes = true

omit [Blake3] in
theorem Fetch.failed_cases (n : Nat) (f : Fetch) (e : NetError) :
    (f.k + 1 < n ∧ f.failed n e = .inl { f with k := f.k + 1, lastErr := e }) ∨
      (n ≤ f.k + 1 ∧ f.failed n e = .inr (.error e)) := by
  unfold Fetch.failed
  by_cases h : f.k + 1 < n
  · exact .inl ⟨h, if_pos h⟩
  · exact .inr ⟨Nat.not_lt.mp h, if_neg h⟩

/-- Everything one answer can do to a fetch: it ends with the chunk; or the answer was not the
chunk, and the next provider is asked, or there is none and the fetch fails. -/
theorem Fetch.answer_cases (m : Manifest) (n : Nat) (f : Fetch) (a : Answer) :
    (∃ bytes, fetchChunk a = .ok (some bytes) ∧ m.chunkHashOk f.index bytes = true ∧
        f.answer m n a = .inr (.ok bytes)) ∨
      (¬ a.Serves m f.index ∧
        ((∃ e, f.k + 1 < n ∧ f.answer m n a = .inl { f with k := f.k + 1, lastErr := e }) ∨
          ∃ e, n ≤ f.k + 1 ∧ f.answer m n a = .inr (.error e))) := by
  have hfail : ∀ e, f.answer m n a = f.failed n e → (∃ e, f.k + 1 < n ∧
      f.answer m n a = .inl { f with k := f.k + 1, lastErr := e }) ∨
      ∃ e, n ≤ f.k + 1 ∧ f.answer m n a = .inr (.error e) := by
    intro e he
    rcases Fetch.failed_cases n f e with ⟨hk, h⟩ | ⟨hk, h⟩
    · exact .inl ⟨e, hk, he.trans h⟩
    · exact .inr ⟨e, hk, he.trans h⟩
  cases ha : fetchChunk a with
  | error e =>
    refine .inr ⟨?_, hfail e (by rw [Fetch.answer, ha])⟩
    rintro ⟨bytes, hb, -⟩
    rw [ha] at hb
    cases hb
  | ok data =>
    cases data with
    | none =>
      refine .inr ⟨?_, hfail (.missingChunk f.hash) (by rw [Fetch.answer, ha])⟩
      rintro ⟨bytes, hb, -⟩
      rw [ha] at hb
      cases hb
    | some bytes =>
      cases hok : m.chunkHashOk f.index bytes with
      | true => exact .inl ⟨bytes, rfl, hok, by simp [Fetch.answer, ha, hok]⟩
      | false =>
        refine .inr ⟨?_, hfail .badChunk (by simp [Fetch.answer, ha, hok])⟩
        rintro ⟨other, hb, hother⟩
        rw [ha] at hb
        cases hb
        rw [hok] at hother
        cases hother

/-- Bytes that pass the check hash to the listed chunk. -/
theorem Manifest.hash_of_chunkHashOk {m : Manifest} {index : Nat} {bytes : Bytes}
    (h : m.chunkHashOk index bytes = true) :
    ∃ c, m.chunks[index]? = some c ∧ Hash.of bytes = c.hash := by
  unfold Manifest.chunkHashOk at h
  split at h
  · next c hc => exact ⟨c, hc, beq_iff_eq.mp h⟩
  · cases h

theorem Manifest.mem_hashes_of_chunkHashOk {m : Manifest} {index : Nat} {bytes : Bytes}
    (h : m.chunkHashOk index bytes = true) : Hash.of bytes ∈ m.hashes := by
  obtain ⟨c, hc, hhash⟩ := Manifest.hash_of_chunkHashOk h
  rw [hhash]
  exact List.mem_map_of_mem (List.mem_of_getElem? hc)

end

/-! ## Polling the stream -/

variable {Peer : Type}

/-- The fetches that have not ended. -/
def Fetching.pending (f : Fetching Peer) : List Fetch := f.inFlight ++ f.waiting

@[simp] theorem Fetching.pending_refill (f : Fetching Peer) : f.refill.pending = f.pending := by
  simp [Fetching.refill, Fetching.pending, List.append_assoc]

/-- A poll moves the pending fetches and no more; without any, the download is over. -/
theorem Fetching.poll_cases (f : Fetching Peer) :
    (f.poll = .fetching f.refill ∧ f.refill.inFlight ≠ []) ∨
      (f.pending = [] ∧ ((∃ e, f.firstFailure = some e ∧
          f.poll = .returned (.error e) f.fetchedBytes) ∨
        (f.firstFailure = none ∧ f.poll = .returned (.ok f.manifest) f.fetchedBytes))) := by
  by_cases hempty : f.refill.inFlight = []
  · right
    have hnone : f.pending = [] := by
      simp only [Fetching.refill, List.append_eq_nil_iff] at hempty
      obtain ⟨hfly, hwait⟩ := hempty
      rw [hfly, List.length_nil, Nat.sub_zero] at hwait
      have : f.waiting = [] := by
        cases hw : f.waiting with
        | nil => rfl
        | cons t ts => rw [hw] at hwait; cases hwait
      rw [Fetching.pending, hfly, this, List.append_nil]
    refine ⟨hnone, ?_⟩
    unfold Fetching.poll
    rw [if_pos hempty]
    cases hf : f.firstFailure with
    | none => exact .inr ⟨rfl, by simp only [Fetching.refill, hf]⟩
    | some e => exact .inl ⟨e, rfl, by simp only [Fetching.refill, hf]⟩
  · exact .inl ⟨by rw [Fetching.poll, if_neg hempty], hempty⟩

/-- The fetch in this slot, and the others: what is taken from those in flight is one of them. -/
theorem perm_of_find? {slot : Nat} {t : Fetch} : ∀ {l : List Fetch}, (l.map Fetch.slot).Nodup →
    l.find? (fun u => decide (u.slot = slot)) = some t →
    t.slot = slot ∧ l.Perm (t :: l.filter fun u => decide (u.slot ≠ slot))
  | [], _, h => by cases h
  | u :: l, hnd, h => by
    rw [List.map_cons, List.nodup_cons] at hnd
    obtain ⟨hu, hl⟩ := hnd
    by_cases he : u.slot = slot
    · rw [List.find?_cons_of_pos (by simpa using he)] at h
      cases h
      have hrest : l.filter (fun v => decide (v.slot ≠ slot)) = l := by
        refine List.filter_eq_self.mpr fun v hv => decide_eq_true fun hvs => hu ?_
        rw [he, ← hvs]
        exact List.mem_map_of_mem hv
      rw [List.filter_cons_of_neg (by simpa using he), hrest]
      exact ⟨he, .refl _⟩
    · rw [List.find?_cons_of_neg (by simpa using he)] at h
      obtain ⟨hslot, hperm⟩ := perm_of_find? hl h
      rw [List.filter_cons_of_pos (by simpa using he)]
      exact ⟨hslot, (hperm.cons u).trans (.swap t u _)⟩

/-- A fetch that goes on takes the place of what it was. -/
theorem map_replace_perm {slot : Nat} {t t' : Fetch} {l : List Fetch}
    (hnd : (l.map Fetch.slot).Nodup)
    (h : l.find? (fun u => decide (u.slot = slot)) = some t) :
    (l.map fun u => if u.slot = slot then t' else u).Perm
      (t' :: l.filter fun u => decide (u.slot ≠ slot)) := by
  obtain ⟨hslot, hperm⟩ := perm_of_find? hnd h
  refine (hperm.map _).trans (List.Perm.of_eq ?_)
  rw [List.map_cons, if_pos hslot]
  congr 1
  refine List.map_congr_left (fun u hu => ?_) |>.trans (List.map_id _)
  rw [if_neg (by simpa using (List.mem_filter.mp hu).2)]
  rfl

/-! ## A download in progress -/

/-- The stream without the fetch in this slot. -/
def Fetching.without (f : Fetching Peer) (slot : Nat) : Fetching Peer :=
  { f with inFlight := f.inFlight.filter fun u => decide (u.slot ≠ slot) }

/-- The stream with the fetch in its slot replaced. -/
def Fetching.replace (f : Fetching Peer) (t : Fetch) : Fetching Peer :=
  { f with inFlight := f.inFlight.map fun u => if u.slot = t.slot then t else u }

/-- A fetch has failed. -/
def Fetching.fail (f : Fetching Peer) (e : NetError) : Fetching Peer :=
  { f with firstFailure := f.firstFailure.or (some e) }

/-- The fetch in flight in this slot. -/
def Fetching.InFlight (f : Fetching Peer) (slot : Nat) (t : Fetch) : Prop :=
  f.inFlight.find? (fun u => decide (u.slot = slot)) = some t

theorem Fetching.InFlight.mem {f : Fetching Peer} {slot : Nat} {t : Fetch}
    (h : f.InFlight slot t) : t ∈ f.pending :=
  List.mem_append_left _ (List.mem_of_find?_eq_some h)

theorem Fetching.mem_of_without {f : Fetching Peer} {slot : Nat} {u : Fetch}
    (hu : u ∈ (f.without slot).pending) : u ∈ f.pending := by
  rcases List.mem_append.mp hu with hu | hu
  · exact List.mem_append_left _ (List.mem_filter.mp hu).1
  · exact List.mem_append_right _ hu

theorem Fetching.eq_or_mem_of_replace {f : Fetching Peer} {t u : Fetch}
    (hu : u ∈ (f.replace t).pending) : u = t ∨ u ∈ f.pending := by
  rcases List.mem_append.mp hu with hu | hu
  · obtain ⟨v, hv, rfl⟩ := List.mem_map.mp hu
    split
    · exact .inl rfl
    · exact .inr (List.mem_append_left _ hv)
  · exact .inr (List.mem_append_right _ hu)

/-- A fetch in flight and what else is pending. -/
theorem Fetching.InFlight.perm {f : Fetching Peer} {slot : Nat} {t : Fetch}
    (h : f.InFlight slot t) (hnd : (f.pending.map Fetch.slot).Nodup) :
    t.slot = slot ∧ f.pending.Perm (t :: (f.without slot).pending) := by
  rw [Fetching.pending, List.map_append] at hnd
  obtain ⟨hslot, hperm⟩ := perm_of_find? hnd.of_append_left h
  exact ⟨hslot, hperm.append_right f.waiting⟩

theorem Fetching.InFlight.replace_perm {f : Fetching Peer} {slot : Nat} {t t' : Fetch}
    (h : f.InFlight slot t) (hnd : (f.pending.map Fetch.slot).Nodup) (ht' : t'.slot = slot) :
    (f.replace t').pending.Perm (t' :: (f.without slot).pending) := by
  rw [Fetching.pending, List.map_append] at hnd
  subst ht'
  exact (map_replace_perm hnd.of_append_left h).append_right f.waiting

/-- The pending fetches have slots of their own, are for listed chunks, and have a provider left to
ask. -/
structure Fetching.Fits (n : Nat) (f : Fetching Peer) : Prop where
  distinct : (f.pending.map Fetch.slot).Nodup
  listed : ∀ t ∈ f.pending, ∃ c, f.manifest.chunks[t.index]? = some c ∧ c.hash = t.hash
  asked : ∀ t ∈ f.pending, t.k < n

/-- The download waits for a provider that is left, or for a fetch. -/
def Phase.Fits (providers : List Peer) : Phase Peer → Prop
  | .manifest ps => ps ≠ [] ∧ ps <:+ providers
  | .fetching f => f.inFlight ≠ [] ∧ f.Fits providers.length
  | .returned _ _ => True

/-- Only what is pending counts. -/
theorem Fetching.Fits.of_perm {n : Nat} {f g : Fetching Peer} (h : f.Fits n)
    (hm : g.manifest = f.manifest) {ts : List Fetch} (hsub : ts.Sublist f.pending)
    (hperm : g.pending.Perm ts) : g.Fits n := by
  refine ⟨?_, fun t ht => ?_, fun t ht => ?_⟩
  · exact (hperm.map _).nodup_iff.mpr (h.distinct.sublist (hsub.map _))
  · rw [hm]
    exact h.listed t (hsub.subset (hperm.mem_iff.mp ht))
  · exact h.asked t (hsub.subset (hperm.mem_iff.mp ht))

/-- A fetch that has ended leaves the others as they are. -/
theorem Fetching.Fits.without {n : Nat} {f : Fetching Peer} (h : f.Fits n) (slot : Nat) :
    (f.without slot).Fits n :=
  h.of_perm rfl (List.filter_sublist.append (.refl _)) (.refl _)

theorem Fetching.Fits.fail {n : Nat} {f : Fetching Peer} (h : f.Fits n) (e : NetError) :
    (f.fail e).Fits n := ⟨h.distinct, h.listed, h.asked⟩

theorem Fetching.Fits.replace {n : Nat} {f : Fetching Peer} {slot : Nat} {t t' : Fetch}
    (h : f.Fits n) (ht : f.InFlight slot t) (hslot : t'.slot = t.slot) (hindex : t'.index = t.index)
    (hhash : t'.hash = t.hash) (hk : t'.k < n) : (f.replace t').Fits n := by
  obtain ⟨hs, hperm⟩ := ht.perm h.distinct
  have hperm' := ht.replace_perm h.distinct (hslot.trans hs)
  have hlisted := h.listed t (hperm.mem_iff.mpr List.mem_cons_self)
  have hold := h.without slot
  refine ⟨?_, fun u hu => ?_, fun u hu => ?_⟩
  · rw [(hperm'.map _).nodup_iff, List.map_cons, hslot, ← List.map_cons (f := Fetch.slot),
      ← (hperm.map _).nodup_iff]
    exact h.distinct
  · rcases List.mem_cons.mp (hperm'.mem_iff.mp hu) with rfl | hu
    · rw [hindex, hhash]
      exact hlisted
    · exact hold.listed u hu
  · rcases List.mem_cons.mp (hperm'.mem_iff.mp hu) with rfl | hu
    · exact hk
    · exact hold.asked u hu

theorem Fetching.Fits.poll {providers : List Peer} {f : Fetching Peer}
    (h : f.Fits providers.length) : f.poll.Fits providers := by
  rcases Fetching.poll_cases f with ⟨he, hne⟩ | ⟨-, ⟨e, -, he⟩ | ⟨-, he⟩⟩
  · rw [he]
    exact ⟨hne, h.of_perm rfl (.refl _) (by rw [Fetching.pending_refill])⟩
  · rw [he]
    trivial
  · rw [he]
    trivial

/-- The missing chunks are listed. -/
theorem Store.missing_listed {d : Disk} : ∀ (chunks : List ChunkRef) (pre : List ChunkRef)
    (s : Store), ∀ p ∈ (Store.missing d s pre.length chunks).1,
    ∃ c, (pre ++ chunks)[p.1]? = some c ∧ c.hash = p.2
  | [], _, _, p, hp => by cases hp
  | c :: chunks, pre, s, p, hp => by
    rw [Store.missing] at hp
    dsimp only at hp
    have ih := Store.missing_listed (d := d) chunks (pre ++ [c]) (s.has d c.hash).2 p
    rw [List.length_append, List.length_singleton, List.append_assoc, List.singleton_append] at ih
    split at hp
    · exact ih hp
    · rcases List.mem_cons.mp hp with rfl | hp
      · exact ⟨c, by simp, rfl⟩
      · exact ih hp

/-- The futures that are begun fit. -/
theorem Fetching.fits_fetchesOf {n : Nat} {d : Disk} {s : Store} {m : Manifest} {done : Nat}
    {fetched : HashMap Peer Nat} (hn : 0 < n) :
    Fetching.Fits n ⟨m, fetchesOf (Store.missing d s 0 m.chunks).1, [], done, fetched, none⟩ := by
  have hmem : ∀ t ∈ fetchesOf (Store.missing d s 0 m.chunks).1, t.k = 0 ∧
      (t.index, t.hash) ∈ (Store.missing d s 0 m.chunks).1 := by
    intro t ht
    obtain ⟨i, hi, rfl⟩ := List.mem_mapIdx.mp ht
    exact ⟨rfl, List.getElem_mem hi⟩
  refine ⟨?_, fun t ht => ?_, fun t ht => ?_⟩
  · have hslots : ((fetchesOf (Store.missing d s 0 m.chunks).1).map Fetch.slot) =
        List.range (Store.missing d s 0 m.chunks).1.length := by
      rw [fetchesOf, List.mapIdx_eq_zipIdx_map, List.map_map, List.range_eq_range']
      exact List.zipIdx_map_snd 0 _
    show (List.map Fetch.slot ([] ++ fetchesOf _)).Nodup
    rw [List.nil_append, hslots]
    exact List.nodup_range
  · exact Store.missing_listed m.chunks [] s _ (hmem t ht).2
  · rw [(hmem t ht).1]
    exact hn

theorem Download.start_fits (providers : List Peer) (d : Disk) (s : Store) :
    (Download.start providers d s).phase.Fits providers := by
  show (if providers = [] then Phase.returned (.error .noProviders) ∅ else
    .manifest providers).Fits providers
  split
  · trivial
  · next hne => exact ⟨hne, List.suffix_rfl⟩

/-! ## One answer to the download -/

section

variable [Blake3] [DecidableEq Peer]

/-- A chunk has been stored. -/
def Fetching.store (f : Fetching Peer) (peer : Option Peer) (bytes : Bytes) : Fetching Peer :=
  { f with done := f.done + 1, fetchedBytes := credit f.fetchedBytes peer bytes }

/-- The bytes that an answer brings and the download puts: those of a chunk that pass the check. -/
def Download.brought (st : Download Peer) : Answered → Option Bytes
  | .manifest _ => none
  | .chunk slot a =>
    match st.phase with
    | .fetching f =>
      match f.inFlight.find? fun t => decide (t.slot = slot), fetchChunk a with
      | some t, .ok (some bytes) =>
        if f.manifest.chunkHashOk t.index bytes then some bytes else none
      | _, _ => none
    | _ => none

/-- Everything an answer can do. -/
inductive Download.Steps (root : Hash) (providers : List Peer) (st : Download Peer) :
    Answered → Download Peer → Prop where
  /-- A manifest passes the checks. -/
  | accepted {a p rest m} : st.phase = .manifest (p :: rest) → getManifest root a = .ok m →
      Steps root providers st (.manifest a) (st.begin m)
  /-- It does not, and the next provider is asked. -/
  | refused {a p rest e} : st.phase = .manifest (p :: rest) → getManifest root a = .error e →
      rest ≠ [] → Steps root providers st (.manifest a) { st with phase := .manifest rest }
  /-- It does not, and that was the last provider. -/
  | exhausted {a p e} : st.phase = .manifest [p] → getManifest root a = .error e →
      Steps root providers st (.manifest a) { st with phase := .returned (.error e) ∅ }
  /-- A fetch asks the next provider. -/
  | next {slot a f t e} : st.phase = .fetching f → f.InFlight slot t →
      ¬ a.Serves f.manifest t.index → t.k + 1 < providers.length →
      Steps root providers st (.chunk slot a)
        { st with phase := .fetching (f.replace { t with k := t.k + 1, lastErr := e }) }
  /-- The last provider has failed a fetch. -/
  | failed {slot a f t e} : st.phase = .fetching f → f.InFlight slot t →
      ¬ a.Serves f.manifest t.index → providers.length ≤ t.k + 1 →
      Steps root providers st (.chunk slot a)
        { st with phase := ((f.without slot).fail e).poll }
  /-- A chunk is there and cannot be stored. -/
  | unwritten {slot a f t bytes e d s} : st.phase = .fetching f → f.InFlight slot t →
      fetchChunk a = .ok (some bytes) → f.manifest.chunkHashOk t.index bytes = true →
      st.store.put st.disk bytes = (.error e, d, s) →
      Steps root providers st (.chunk slot a)
        ⟨d, s, st.progress, .returned (.error (.store e)) ∅⟩
  /-- A chunk is there and is stored. -/
  | stored {slot a f t bytes r d s} : st.phase = .fetching f → f.InFlight slot t →
      fetchChunk a = .ok (some bytes) → f.manifest.chunkHashOk t.index bytes = true →
      st.store.put st.disk bytes = (.ok r, d, s) →
      Steps root providers st (.chunk slot a)
        ⟨d, s, st.progress ++ [(f.done + 1, f.manifest.chunks.length)],
          ((f.without slot).store (t.provider providers) bytes).poll⟩

theorem Download.steps_of_step {root : Hash} {providers : List Peer} {st st' : Download Peer}
    {a : Answered} (h : st.step root providers a = some st') :
    Download.Steps root providers st a st' := by
  cases a with
  | manifest a =>
    rw [Download.step] at h
    split at h
    · next p rest hp =>
      split at h
      · next m hm =>
        cases h
        exact .accepted hp hm
      · next e he =>
        cases h
        by_cases hrest : rest = []
        · subst hrest
          exact .exhausted hp he
        · rw [if_neg hrest]
          exact .refused hp he hrest
    · cases h
  | chunk slot a =>
    rw [Download.step] at h
    split at h
    · next f hf =>
      split at h
      · cases h
      · next t ht =>
        have hslot : t.slot = slot := by simpa using List.find?_some ht
        rcases Fetch.answer_cases f.manifest providers.length t a with
          ⟨bytes, hb, hok, he⟩ | ⟨hno, ⟨e, hk, he⟩ | ⟨e, hk, he⟩⟩
        · rw [he] at h
          dsimp only at h
          cases h
          rw [Download.take]
          split
          · next hput => exact .unwritten hf ht hb hok hput
          · next hput => exact .stored hf ht hb hok hput
        · rw [he] at h
          cases h
          subst hslot
          exact .next hf ht hno hk
        · rw [he] at h
          cases h
          exact .failed hf ht hno hk
    · cases h

omit [DecidableEq Peer] in
theorem Download.brought_of_ok {st : Download Peer} {slot : Nat} {a : Answer} {f : Fetching Peer}
    {t : Fetch} {bytes : Bytes} (hp : st.phase = .fetching f) (ht : f.InFlight slot t)
    (hb : fetchChunk a = .ok (some bytes)) (hok : f.manifest.chunkHashOk t.index bytes = true) :
    st.brought (.chunk slot a) = some bytes := by
  rw [Fetching.InFlight] at ht
  simp only [Download.brought, hp, ht, hb, hok, if_true]

omit [DecidableEq Peer] in
theorem Download.brought_of_not {st : Download Peer} {slot : Nat} {a : Answer} {f : Fetching Peer}
    {t : Fetch} (hp : st.phase = .fetching f) (ht : f.InFlight slot t)
    (hno : ¬ a.Serves f.manifest t.index) : st.brought (.chunk slot a) = none := by
  rw [Fetching.InFlight] at ht
  simp only [Download.brought, hp, ht]
  split
  · next t' bytes ht' hb =>
    cases ht'
    exact if_neg fun hok => hno ⟨bytes, hb, hok⟩
  · rfl

omit [Blake3] in
theorem Fetching.Fits.store {n : Nat} {f : Fetching Peer} (h : f.Fits n) (peer : Option Peer)
    (bytes : Bytes) : (f.store peer bytes).Fits n := ⟨h.distinct, h.listed, h.asked⟩

/-- One answer keeps the download waiting for something, or returns. -/
theorem Download.step_fits {root : Hash} {providers : List Peer} (st : Download Peer)
    (a : Answered) (st' : Download Peer) (h : st.phase.Fits providers)
    (hstep : st.step root providers a = some st') : st'.phase.Fits providers := by
  cases Download.steps_of_step hstep with
  | accepted hp hm =>
    rw [hp] at h
    exact (Fetching.fits_fetchesOf (List.length_pos_iff.mpr fun he => by
      rw [he] at h
      exact h.1 (List.suffix_nil.mp h.2))).poll
  | refused hp he hrest =>
    rw [hp] at h
    exact ⟨hrest, (List.suffix_cons _ _).trans h.2⟩
  | exhausted hp he => trivial
  | next hp ht hno hk =>
    rw [hp] at h
    refine ⟨fun he => h.1 ?_, h.2.replace ht rfl rfl rfl hk⟩
    exact List.map_eq_nil_iff.mp he
  | failed hp ht hno hk =>
    rw [hp] at h
    exact ((h.2.without _).fail _).poll
  | unwritten hp ht hb hok hput => trivial
  | stored hp ht hb hok hput =>
    rw [hp] at h
    exact ((h.2.without _).store _ _).poll

/-! ## How long it takes -/

omit [Blake3] [DecidableEq Peer] in
/-- The answers that are left for the pending fetches, one of them apart. -/
theorem Fetching.left_perm {n : Nat} {f : Fetching Peer} {t : Fetch} {ts : List Fetch}
    (h : f.pending.Perm (t :: ts)) :
    (f.pending.map fun u => n - u.k).sum = (n - t.k) + (ts.map fun u => n - u.k).sum := by
  rw [(h.map _).sum_eq, List.map_cons, List.sum_cons]

/-- How many answers are left: for the manifest, and then for the chunks. -/
def Phase.left (n : Nat) : Phase Peer → Nat × Nat
  | .manifest ps => (1, ps.length)
  | .fetching f => (0, (f.pending.map fun t => n - t.k).sum)
  | .returned _ _ => (0, 0)

omit [Blake3] [DecidableEq Peer] in
/-- After a poll no more answers are left than there were. -/
theorem Fetching.poll_left (n : Nat) (f : Fetching Peer) :
    (f.poll.left n).1 = 0 ∧ (f.poll.left n).2 ≤ (f.pending.map fun t => n - t.k).sum := by
  rcases Fetching.poll_cases f with ⟨he, -⟩ | ⟨-, ⟨e, -, he⟩ | ⟨-, he⟩⟩
  · rw [he]
    refine ⟨rfl, ?_⟩
    rw [Phase.left, Fetching.pending_refill]
  · rw [he]
    exact ⟨rfl, Nat.zero_le _⟩
  · rw [he]
    exact ⟨rfl, Nat.zero_le _⟩

/-- One answer brings the end nearer, whatever it is. -/
theorem Download.step_left {root : Hash} {providers : List Peer} {st st' : Download Peer}
    {a : Answered} (hfits : st.phase.Fits providers)
    (hstep : st.step root providers a = some st') :
    Prod.Lex (· < ·) (· < ·) (st'.phase.left providers.length)
      (st.phase.left providers.length) := by
  have hended : ∀ {slot f t} {g : Fetching Peer}, st.phase = .fetching f → f.InFlight slot t →
      g.pending = (f.without slot).pending → Prod.Lex (· < ·) (· < ·)
        (g.poll.left providers.length) (st.phase.left providers.length) := by
    intro slot f t g hp ht hg
    rw [hp] at hfits ⊢
    have hperm := (ht.perm hfits.2.distinct).2
    have hasked := hfits.2.asked t ht.mem
    obtain ⟨hfirst, hsecond⟩ := Fetching.poll_left providers.length g
    refine Prod.lex_iff.mpr (.inr ⟨hfirst, hsecond.trans_lt ?_⟩)
    dsimp only [Phase.left]
    rw [hg, Fetching.left_perm hperm]
    omega
  cases Download.steps_of_step hstep with
  | accepted hp hm =>
    rw [hp]
    exact Prod.lex_iff.mpr (.inl ((Fetching.poll_left _ _).1.trans_lt Nat.zero_lt_one))
  | refused hp he hrest =>
    rw [hp]
    exact .right _ (Nat.lt_succ_self _)
  | exhausted hp he =>
    rw [hp]
    exact .left _ _ Nat.zero_lt_one
  | @next slot a f t e hp ht hno hk =>
    rw [hp] at hfits ⊢
    obtain ⟨hslot, hperm⟩ := ht.perm hfits.2.distinct
    have hperm' : (f.replace { t with k := t.k + 1, lastErr := e }).pending.Perm
        ({ t with k := t.k + 1, lastErr := e } :: (f.without slot).pending) :=
      ht.replace_perm hfits.2.distinct hslot
    refine .right _ ?_
    rw [Fetching.left_perm hperm, Fetching.left_perm hperm']
    dsimp only
    omega
  | failed hp ht hno hk => exact hended hp ht rfl
  | unwritten hp ht hb hok hput =>
    rw [hp] at hfits ⊢
    have hperm := (ht.perm hfits.2.distinct).2
    have hasked := hfits.2.asked _ ht.mem
    refine .right _ ?_
    rw [Fetching.left_perm hperm]
    omega
  | stored hp ht hb hok hput => exact hended hp ht rfl

/-- The source files are left alone. -/
theorem Download.step_sources {root : Hash} {providers : List Peer} {st st' : Download Peer}
    {a : Answered} (hstep : st.step root providers a = some st') :
    st'.disk.sources = st.disk.sources := by
  have hput : ∀ {bytes r d s}, st.store.put st.disk bytes = (r, d, s) →
      d.sources = st.disk.sources := by
    intro bytes r d s hput
    obtain ⟨packs, tail, hd, -⟩ := Store.put_disk st.disk st.store bytes
    rw [hput] at hd
    rw [show d = _ from hd]
  cases Download.steps_of_step hstep with
  | unwritten hp ht hb hok he => exact hput he
  | stored hp ht hb hok he => exact hput he
  | _ => rfl

/-- A download that has not returned can be answered. -/
theorem Download.enabled (root : Hash) {providers : List Peer} {st : Download Peer}
    (h : st.phase.Fits providers) (hr : st.result = none) :
    ∃ a st', st.step root providers a = some st' := by
  cases hp : st.phase with
  | manifest ps =>
    rw [hp] at h
    obtain ⟨p, rest, rfl⟩ := List.exists_cons_of_ne_nil h.1
    refine ⟨.manifest (.error .shutdown), ?_⟩
    simp only [Download.step, hp, getManifest]
    exact ⟨_, rfl⟩
  | fetching f =>
    rw [hp] at h
    obtain ⟨t, ts, hf⟩ := List.exists_cons_of_ne_nil h.1
    refine ⟨.chunk t.slot (.error .shutdown), ?_⟩
    simp only [Download.step, hp, hf, List.find?_cons, decide_true]
    split
    · exact ⟨_, rfl⟩
    · exact ⟨_, rfl⟩
  | returned r receipts =>
    rw [Download.result, hp] at hr
    cases hr

/-! ## The manifest -/

/-- The manifest that a phase holds, if there is one yet, is `P`. -/
def Phase.Holds (P : Manifest → Prop) : Phase Peer → Prop
  | .manifest _ => True
  | .fetching f => P f.manifest
  | .returned (.ok m) _ => P m
  | .returned (.error _) _ => True

omit [Blake3] [DecidableEq Peer] in
theorem Fetching.poll_holds {P : Manifest → Prop} {f : Fetching Peer} (h : P f.manifest) :
    f.poll.Holds P := by
  rcases Fetching.poll_cases f with ⟨he, -⟩ | ⟨-, ⟨e, -, he⟩ | ⟨-, he⟩⟩
  · rw [he]
    exact h
  · rw [he]
    trivial
  · rw [he]
    exact h

omit [Blake3] [DecidableEq Peer] in
theorem Download.phase_of_result {st : Download Peer} {r : Except NetError Manifest}
    (hr : st.result = some r) : ∃ receipts, st.phase = .returned r receipts := by
  unfold Download.result at hr
  split at hr
  · next hp =>
    cases hr
    exact ⟨_, hp⟩
  · cases hr

omit [Blake3] [DecidableEq Peer] in
theorem Download.holds_of_result {P : Manifest → Prop} {st : Download Peer} {m : Manifest}
    (h : st.phase.Holds P) (hr : st.result = some (.ok m)) : P m := by
  obtain ⟨receipts, hp⟩ := Download.phase_of_result hr
  rw [hp] at h
  exact h

/-- One answer: a manifest comes from an answer, and then stays. -/
theorem Download.step_holds {P : Manifest → Prop} {root : Hash} {providers : List Peer}
    {st st' : Download Peer} {a : Answered}
    (hP : ∀ b m, a = .manifest b → getManifest root b = .ok m → P m) (h : st.phase.Holds P)
    (hstep : st.step root providers a = some st') : st'.phase.Holds P := by
  cases Download.steps_of_step hstep with
  | accepted hp hm => exact Fetching.poll_holds (hP _ _ rfl hm)
  | refused hp he hrest => trivial
  | exhausted hp he => trivial
  | next hp ht hno hk =>
    rw [hp] at h
    exact h
  | failed hp ht hno hk =>
    rw [hp] at h
    exact Fetching.poll_holds h
  | unwritten hp ht hb hok hput => trivial
  | stored hp ht hb hok hput =>
    rw [hp] at h
    exact Fetching.poll_holds h

/-- The manifest that a phase holds has passed the checks of `get_manifest`. -/
def Phase.Vetted (root : Hash) : Phase Peer → Prop
  | .manifest _ => True
  | .fetching f => f.manifest.Vetted root
  | .returned (.ok m) _ => m.Vetted root
  | .returned (.error _) _ => True

omit [DecidableEq Peer] in
theorem Phase.vetted_iff {root : Hash} (phase : Phase Peer) :
    phase.Vetted root ↔ phase.Holds (Manifest.Vetted root) := by
  unfold Phase.Vetted Phase.Holds
  split <;> exact Iff.rfl

/-- One answer keeps the manifest vetted. -/
theorem Download.step_vetted {root : Hash} {providers : List Peer}
    (st : Download Peer) (a : Answered) (st' : Download Peer) (h : st.phase.Vetted root)
    (hstep : st.step root providers a = some st') : st'.phase.Vetted root := by
  rw [Phase.vetted_iff] at h ⊢
  exact Download.step_holds (fun b m _ hm => vetted_of_getManifest hm) h hstep

omit [DecidableEq Peer] in
theorem Download.start_vetted {root : Hash} (providers : List Peer) (d : Disk) (s : Store) :
    (Download.start providers d s).phase.Vetted root := by
  show (if providers = [] then Phase.returned (.error .noProviders) ∅ else
    .manifest providers).Vetted root
  split <;> trivial

end

end Np2ptp
