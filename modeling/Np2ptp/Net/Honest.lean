import Np2ptp.Core.BuiltManifest
import Np2ptp.Lib.Runs
import Np2ptp.Net.DownloadLaws
import Np2ptp.Store.History

/-!
# One honest provider is enough

A fetch asks its providers round robin, so before it fails it has asked every one of them, wherever
in the list it began (`exists_turn`). A download that has an honest provider among its providers is
therefore never out of them: each answer brings the end nearer, and the end is success
(`download_multi_with_honest`), in whatever order the fetches are answered. What a liar can still
do is to send another manifest with the content id; it lists the chunks of the content, which the
honest provider has, or the two lists are a collision.
-/

namespace Np2ptp

open Lib

/-! ## Round robin -/

/-- Going round a list from anywhere comes by every place. -/
theorem exists_turn {n slot i : Nat} (hi : i < n) : ∃ k < n, (slot + k) % n = i := by
  have hslot : slot % n < n := Nat.mod_lt _ (by omega)
  refine ⟨(n - slot % n + i) % n, Nat.mod_lt _ (by omega), ?_⟩
  rw [Nat.add_mod_mod, ← Nat.mod_add_mod, ← Nat.add_assoc,
    show slot % n + (n - slot % n) = n by omega, Nat.add_mod_left, Nat.mod_eq_of_lt hi]

variable {Peer : Type}

/-- The fetch has not asked this peer yet. -/
def Fetch.Spares (providers : List Peer) (honest : Peer) (t : Fetch) : Prop :=
  ∀ j < t.k, providers[(t.slot + j) % providers.length]? ≠ some honest

/-- A fetch that has asked all but one and has not asked a peer of the list asks it now. -/
theorem Fetch.Spares.provider_eq {providers : List Peer} {honest : Peer} {t : Fetch}
    (h : t.Spares providers honest) (hmem : honest ∈ providers) (hk : providers.length ≤ t.k + 1) :
    t.provider providers = some honest := by
  obtain ⟨i, hi, hget⟩ := List.mem_iff_getElem.mp hmem
  obtain ⟨k, hlt, hturn⟩ := @exists_turn providers.length t.slot i hi
  have hask : providers[(t.slot + k) % providers.length]? = some honest := by
    rw [hturn, List.getElem?_eq_getElem hi, hget]
  have hlast : t.k = k := by
    by_contra hne
    exact h k (by omega) hask
  rw [Fetch.provider, hlast, hask]

/-- A fetch that was not served by a peer it asked goes on to spare it, if it spares it still. -/
theorem Fetch.Spares.next {providers : List Peer} {honest : Peer} {t : Fetch}
    (h : t.Spares providers honest) (hne : t.provider providers ≠ some honest) (e : NetError) :
    Fetch.Spares providers honest { t with k := t.k + 1, lastErr := e } := by
  intro j hj
  rcases Nat.lt_succ_iff_lt_or_eq.mp hj with hlt | rfl
  · exact h j hlt
  · exact hne

/-! ## The run -/

section

variable [Blake3]

/-- The manifest that the download has accepted, for as long as it has not failed. -/
def Phase.accepted : Phase Peer → Option Manifest
  | .fetching f => some f.manifest
  | .returned (.ok m) _ => some m
  | _ => none

/-- The honest peer answers each request it gets with what was asked for, the manifest `m₀` or a
chunk that it has; and the store writes succeed. All other answers are free. -/
def Download.HonestStep (providers : List Peer) (honest : Peer) (m₀ : Manifest) (has : Hash → Prop)
    (st : Download Peer) (a : Answered) : Prop :=
  (match a with
    | .manifest a => ∀ rest, st.phase = .manifest (honest :: rest) →
        ∃ bytes, a = .ok (.manifest (some bytes)) ∧ Manifest.fromNptp bytes = .ok m₀
    | .chunk slot a => ∀ f t, st.phase = .fetching f → f.InFlight slot t →
        t.provider providers = some honest → has t.hash →
        ∃ bytes, a = .ok (.chunk (some bytes)) ∧ Hash.of bytes = t.hash) ∧
  ∀ bytes, st.brought a = some bytes → ∃ r, (st.store.put st.disk bytes).1 = .ok r

/-- The download has succeeded; or the manifest it has accepted and the honest one are a
collision, and the honest provider does not have all its chunks. -/
def Download.Won (m₀ : Manifest) (has : Hash → Prop) (st : Download Peer) : Prop :=
  (∃ m, st.result = some (.ok m)) ∨ ∃ m, st.phase.accepted = some m ∧ (∃ h ∈ m.hashes, ¬ has h) ∧
    Collision Hash.of (merkleStrings m.hashes) (merkleStrings m₀.hashes)

/-- What the honest provider keeps true: it has not been asked in vain. -/
def Phase.Hopeful (providers : List Peer) (honest : Peer) (has : Hash → Prop) : Phase Peer → Prop
  | .manifest ps => honest ∈ ps
  | .fetching f => (∀ h ∈ f.manifest.hashes, has h) ∧ f.firstFailure = none ∧
      ∀ t ∈ f.pending, t.Spares providers honest
  | .returned r _ => ∃ m, r = .ok m

variable {root : Hash} {providers : List Peer} {honest : Peer} {m₀ : Manifest} {has : Hash → Prop}

omit [Blake3] in
/-- Without a failed fetch a poll goes on or ends in success. -/
theorem Fetching.poll_hopeful (providers : List Peer) (honest : Peer) {f : Fetching Peer}
    (hm : ∀ h ∈ f.manifest.hashes, has h) (hf : f.firstFailure = none)
    (hs : ∀ t ∈ f.pending, t.Spares providers honest) :
    f.poll.Hopeful providers honest has := by
  rcases Fetching.poll_cases f with ⟨he, -⟩ | ⟨-, ⟨e, he, -⟩ | ⟨-, he⟩⟩
  · rw [he]
    refine ⟨hm, hf, ?_⟩
    rw [Fetching.pending_refill]
    exact hs
  · rw [hf] at he
    cases he
  · rw [he]
    exact ⟨_, rfl⟩

omit [Blake3] in
theorem Fetching.accepted_poll {f : Fetching Peer} (hf : f.firstFailure = none) :
    f.poll.accepted = some f.manifest := by
  rcases Fetching.poll_cases f with ⟨he, -⟩ | ⟨-, ⟨e, he, -⟩ | ⟨-, he⟩⟩
  · rw [he]
    rfl
  · rw [hf] at he
    cases he
  · rw [he]
    rfl

/-- Two vetted manifests of one content id list the same chunks, or are a collision. -/
theorem Manifest.Vetted.hashes_eq_or_collision {m : Manifest} (h : m.Vetted root)
    (h₀ : m₀.Vetted root) : m.hashes = m₀.hashes ∨
      Collision Hash.of (merkleStrings m.hashes) (merkleStrings m₀.hashes) := by
  obtain ⟨hroot, hcons, -⟩ := h
  obtain ⟨hroot₀, hcons₀, -⟩ := h₀
  refine merkleRoot_inj ?_
  rw [beq_iff_eq.mp hcons, beq_iff_eq.mp hcons₀, hroot, hroot₀]

/-- The honest provider's manifest is accepted. -/
theorem Download.HonestStep.getManifest_eq (hm₀ : m₀.Vetted root) {st : Download Peer}
    {a : Answer} {rest : List Peer} (h : st.HonestStep providers honest m₀ has (.manifest a))
    (hp : st.phase = .manifest (honest :: rest)) : getManifest root a = .ok m₀ := by
  obtain ⟨bytes, rfl, hparse⟩ := h.1 rest hp
  exact getManifest_of_vetted hparse hm₀

/-- The honest provider's answer serves the fetch. -/
theorem Download.HonestStep.serves {st : Download Peer} {slot : Nat} {a : Answer}
    {f : Fetching Peer} {t : Fetch} {n : Nat}
    (h : st.HonestStep providers honest m₀ has (.chunk slot a)) (hp : st.phase = .fetching f)
    (ht : f.InFlight slot t) (hfits : f.Fits n) (hm : ∀ h ∈ f.manifest.hashes, has h)
    (hprovider : t.provider providers = some honest) : a.Serves f.manifest t.index := by
  obtain ⟨c, hc, hhash⟩ := hfits.listed t ht.mem
  have hhas : has t.hash := by
    rw [← hhash]
    exact hm _ (List.mem_map_of_mem (List.mem_of_getElem? hc))
  obtain ⟨bytes, rfl, hb⟩ := h.1 f t hp ht hprovider hhas
  refine ⟨bytes, rfl, ?_⟩
  simp only [Manifest.chunkHashOk, hc, hhash, hb, beq_self_eq_true]

variable [DecidableEq Peer]

/-- One answer keeps the honest provider in hand. -/
theorem Download.step_hopeful (hhonest : honest ∈ providers) (hm₀ : m₀.Vetted root)
    (hhas : ∀ h ∈ m₀.hashes, has h) {st st' : Download Peer} {a : Answered}
    (hfits : st.phase.Fits providers) (h : st.phase.Hopeful providers honest has)
    (hok : st.HonestStep providers honest m₀ has a) (hstep : st.step root providers a = some st') :
    st'.Won m₀ has ∨ st'.phase.Hopeful providers honest has := by
  cases Download.steps_of_step hstep with
  | @accepted a p rest m hp hm =>
    by_cases hall : ∀ h ∈ m.hashes, has h
    · refine .inr (Fetching.poll_hopeful providers honest hall rfl fun t ht j hj => ?_)
      obtain ⟨i, hi, rfl⟩ := List.mem_mapIdx.mp ht
      exact absurd hj (Nat.not_lt_zero j)
    · obtain ⟨h, hlisted, hno⟩ : ∃ h ∈ m.hashes, ¬ has h := by simpa using hall
      rcases (vetted_of_getManifest hm).hashes_eq_or_collision hm₀ with heq | hcollision
      · exact absurd (hhas h (heq ▸ hlisted)) hno
      · exact .inl (.inr ⟨m, Fetching.accepted_poll rfl, ⟨h, hlisted, hno⟩, hcollision⟩)
  | @refused a p rest e hp he hrest =>
    have hliar : honest ≠ p := by
      rintro rfl
      rw [hok.getManifest_eq hm₀ hp] at he
      cases he
    rw [hp] at h
    exact .inr ((List.mem_cons.mp h).resolve_left hliar)
  | @exhausted a p e hp he =>
    have hlast : honest = p := by
      rw [hp] at h
      exact List.mem_singleton.mp h
    subst hlast
    rw [hok.getManifest_eq hm₀ hp] at he
    cases he
  | @next slot a f t e hp ht hno hk =>
    rw [hp] at h hfits
    obtain ⟨hm, hf, hspares⟩ := h
    have hother : t.provider providers ≠ some honest := fun hprovider =>
      hno (hok.serves hp ht hfits.2 hm hprovider)
    refine .inr ⟨hm, hf, fun u hu => ?_⟩
    rcases Fetching.eq_or_mem_of_replace hu with rfl | hu
    · exact (hspares t ht.mem).next hother e
    · exact hspares u hu
  | @failed slot a f t e hp ht hno hk =>
    rw [hp] at h hfits
    obtain ⟨hm, hf, hspares⟩ := h
    exact absurd (hok.serves hp ht hfits.2 hm ((hspares t ht.mem).provider_eq hhonest hk)) hno
  | @unwritten slot a f t bytes e d s hp ht hb hserved hput =>
    obtain ⟨r, hr⟩ := hok.2 bytes (Download.brought_of_ok hp ht hb hserved)
    rw [hput] at hr
    cases hr
  | @stored slot a f t bytes r d s hp ht hb hserved hput =>
    rw [hp] at h hfits
    obtain ⟨hm, hf, hspares⟩ := h
    exact .inr (Fetching.poll_hopeful providers honest hm hf
      fun u hu => hspares u (Fetching.mem_of_without hu))

/-- One honest provider is enough. It has a manifest of the content id and the chunks listed there,
and maybe others. Wherever it stands in the list, whatever the other providers answer, and in
whatever order the chunks come in: the download is bound to succeed, unless it has accepted a
manifest with a chunk that the honest provider does not have, whose chunk list is then a collision
with the honest one. -/
theorem download_multi_with_honest (hhonest : honest ∈ providers) (hm₀ : m₀.Vetted root)
    (hhas : ∀ h ∈ m₀.hashes, has h) (d : Disk) (s : Store) :
    Inevitably (Download.step root providers) (Download.HonestStep providers honest m₀ has)
      (Download.Won m₀ has) (Download.start providers d s) := by
  have hne : providers ≠ [] := List.ne_nil_of_mem hhonest
  refine inevitably_of_measure (I := fun st : Download Peer =>
    st.phase.Fits providers ∧ st.phase.Hopeful providers honest has)
    (fun st => st.phase.left providers.length) ?_ ?_ ⟨Download.start_fits providers d s, ?_⟩
  · intro st hI hno
    refine Download.enabled root hI.1 ?_
    cases hr : st.result with
    | none => rfl
    | some r =>
      obtain ⟨-, hhope⟩ := hI
      obtain ⟨receipts, hp⟩ := Download.phase_of_result hr
      rw [hp] at hhope
      obtain ⟨m, rfl⟩ := hhope
      exact absurd (.inl ⟨m, hr⟩) hno
  · intro st a st' hI hok hstep
    rcases Download.step_hopeful hhonest hm₀ hhas hI.1 hI.2 hok hstep with hwon | hhope
    · exact .inl hwon
    · exact .inr ⟨⟨Download.step_fits st a st' hI.1 hstep, hhope⟩,
        Download.step_left hI.1 hstep⟩
  · show (if providers = [] then Phase.returned (.error .noProviders) ∅ else
      .manifest providers).Hopeful providers honest has
    rw [if_neg hne]
    exact hhonest

/-! ## A manifest from the right peer -/

/-- Whoever is asked for the manifest, `q` is asked first, and what has been accepted is `m`. -/
def Phase.Follows (q : Peer) (m : Manifest) : Phase Peer → Prop
  | .manifest ps => ps.head? = some q
  | .fetching f => f.manifest = m
  | .returned (.ok m') _ => m' = m
  | .returned (.error _) _ => True

omit [Blake3] [DecidableEq Peer] in
theorem Fetching.poll_follows (q : Peer) {m : Manifest} {f : Fetching Peer} (h : f.manifest = m) :
    f.poll.Follows q m := by
  rcases Fetching.poll_cases f with ⟨he, -⟩ | ⟨-, ⟨e, -, he⟩ | ⟨-, he⟩⟩
  · rw [he]
    exact h
  · rw [he]
    trivial
  · rw [he]
    exact h

/-- One answer leaves it so, if `q` answers with its manifest. -/
theorem Download.step_follows {root : Hash} {providers : List Peer} {q : Peer} {m : Manifest}
    {has : Hash → Prop} (hm : m.Vetted root) {st st' : Download Peer} {a : Answered}
    (h : st.phase.Follows q m) (hok : st.HonestStep providers q m has a)
    (hstep : st.step root providers a = some st') : st'.phase.Follows q m := by
  have hfirst {p : Peer} {rest : List Peer} {b : Answer} (ha : a = .manifest b)
      (hp : st.phase = .manifest (p :: rest)) : getManifest root b = .ok m := by
    subst ha
    rw [hp] at h
    obtain rfl : p = q := Option.some.inj h
    exact hok.getManifest_eq hm hp
  cases Download.steps_of_step hstep with
  | @accepted b p rest m' hp hm' =>
    rw [hfirst rfl hp, Except.ok.injEq] at hm'
    exact Fetching.poll_follows q hm'.symm
  | @refused b p rest e hp he hrest =>
    rw [hfirst rfl hp] at he
    cases he
  | @exhausted b p e hp he =>
    rw [hfirst rfl hp] at he
    cases he
  | next hp ht hno hk =>
    rw [hp] at h
    exact h
  | failed hp ht hno hk =>
    rw [hp] at h
    exact Fetching.poll_follows q h
  | unwritten hp ht hb hserved hput => trivial
  | stored hp ht hb hserved hput =>
    rw [hp] at h
    exact Fetching.poll_follows q h

omit [DecidableEq Peer] in
/-- A download that has won follows `q`, so it has the manifest. -/
theorem Download.Won.result_eq {m : Manifest} {st : Download Peer} {q : Peer}
    (h : st.Won m (· ∈ m.hashes)) (hf : st.phase.Follows q m) : st.result = some (.ok m) := by
  rcases h with ⟨m', hr⟩ | ⟨m', haccepted, ⟨g, hg, hno⟩, -⟩
  · obtain ⟨receipts, hp⟩ := Download.phase_of_result hr
    rw [hp] at hf
    rw [hr, show m' = m from hf]
  · refine absurd hg ?_
    unfold Phase.accepted at haccepted
    split at haccepted
    · next f hp =>
      rw [hp] at hf
      obtain rfl : f.manifest = m := hf
      cases haccepted
      exact hno
    · next m'' receipts hp =>
      rw [hp] at hf
      obtain rfl : m'' = m := hf
      cases haccepted
      exact hno
    · cases haccepted

end

/-- Two providers, of which the second has the one-byte content `x`. -/
theorem download_with_second_honest :
    let _ := blake3OfX
    let _ := minFastCDC
    let m := Manifest.fromFiles [(dataPath, [120])] none
    Inevitably (Download.step rootOfX [false, true]) (Download.HonestStep [false, true] true m
      (· ∈ m.hashes)) (Download.Won m (· ∈ m.hashes))
      (Download.start [false, true] (Disk.fresh ∅ ∅ some) Store.fresh) := by
  let _ := blake3OfX
  let _ := minFastCDC
  exact download_multi_with_honest (by decide) (by refine ⟨?_, ?_, ?_⟩ <;> decide +kernel)
    (fun _ h => h) _ _

end Np2ptp
