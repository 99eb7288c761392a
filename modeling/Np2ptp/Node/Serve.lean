import Np2ptp.Net.Reseeding
import Np2ptp.Node.PackGet

/-!
# Serving and fetching

`cmd_serve` and `cmd_fetch` of `np2ptp-node/src/main.rs` with the network between them. What is
served is a manifest file, from the store that the directory was packed into; what is fetched is the
content id, into another store, and then written out. The content id says nothing of names, so it is
the provider that is asked first who decides what the files are called; their contents are checked,
whoever sends them. With a seed asked first, what is written is the directory that was packed
(`served_directory_arrives`), in whatever network and with whatever other providers.
-/

namespace Np2ptp

open Lib

section

variable [Blake3] [Ed25519] [RaptorQ] {Peer : Type} [DecidableEq Peer]

/-- `cmd_serve` of a manifest file, up to where the content is announced. -/
def cmdServe (d : Disk) (nptp : Bytes) (ledger : Ledger Peer) (receipts : List Receipt)
    (repIdentity : Ed25519.SigningKey) (now : UInt64) : Except CliError (EventLoop Peer) :=
  match Manifest.fromNptp nptp with
  | .error e => .error (.manifest e)
  | .ok m =>
    match Store.open d with
    | (.error e, _) => .error (.store e)
    | (.ok s, d) =>
      let e := EventLoop.new d s ledger receipts repIdentity now
      .ok ((e.step (.provide m.root m.toNptp)).getD e)

/-- What `cmd_fetch` writes when its download is done. -/
def cmdFetchOutput (refuses : List Bytes → Bool) (creates : Bool) (c : Client Peer)
    (outFlag : Option Bytes) (t : OutputTree) : Option (Except CliError Output) :=
  match c.download.result with
  | some (.ok m) =>
    some (writeOutput refuses creates c.download.disk c.download.store m outFlag t)
  | _ => none

/-! ## A manifest from the right peer -/

/-- The download of `p` has succeeded with the manifest `m`. -/
def Sharing.Obtained (p : Peer) (m : Manifest) (w : Sharing Peer) : Prop :=
  ∃ c, w.clients p = some c ∧ c.Safe ∧ c.download.result = some (.ok m)

/-- The manifest of the first provider is what is obtained, with all its chunks: whoever the other
providers are, as long as the first one stays, does not choke, and its answers arrive. -/
theorem Sharing.obtained_inevitable {w w₁ : Sharing Peer} {q p : Peer} {root : Hash} {m : Manifest}
    {others : List Peer} {d : Disk} {s : Store} (hsafe : w.Safe) (hseeds : w.Seeds q root m)
    (hs : s.Whole d) (harrive : w.step (.arrive p root (q :: others) d s) = some w₁) :
    Inevitably (Sharing.turn p) (Sharing.Fair q p root m) (Sharing.Obtained p m) w₁ := by
  obtain ⟨e, hq, hm⟩ := hseeds
  have hstart : w₁.Hopes q p root m ⟨root, q :: others, .start (q :: others) d s⟩ :=
    Sharing.hopes_arrive hsafe hq hm List.mem_cons_self hs harrive
  have hwon {w : Sharing Peer} {c : Client Peer} (h : w.Waits q p root m c)
      (hc : c.download.Won m (· ∈ m.hashes)) (hf : c.download.phase.Follows q m) :
      w.Obtained p m :=
    ⟨c, h.client, h.safe.clients p c h.client, hc.result_eq hf⟩
  refine inevitably_of_measure
    (I := fun w => ∃ c, w.Hopes q p root m c ∧ c.download.phase.Follows q m) (Sharing.left p) ?_ ?_
    ⟨_, hstart, rfl⟩
  · rintro w ⟨c, h, hf⟩ hno
    refine h.enabled fun hw => hno ?_
    obtain ⟨c', hc', hdone⟩ := hw
    rw [h.waits.client] at hc'
    cases hc'
    exact hwon h.waits hdone hf
  · rintro w t w' ⟨c, h, hf⟩ hfair hstep
    obtain ⟨st, hhonest, hst, hwaits⟩ := h.waits.turn h.root hfair hstep
    have hvetted : m.Vetted c.root := h.root ▸ h.waits.vetted
    have hf' : st.phase.Follows q m := Download.step_follows hvetted hf hhonest hst
    have hfits := (h.waits.safe.clients p c h.waits.client).fits
    rcases Download.step_hopeful h.asks hvetted (fun _ hg => hg) hfits h.hopeful hhonest hst with
      hdone | hhope
    · exact .inl (hwon hwaits hdone hf')
    · refine .inr ⟨⟨_, ⟨hwaits, h.root, h.asks, hhope⟩, hf'⟩, ?_⟩
      rw [h.waits.left_eq, hwaits.left_eq]
      exact Download.step_left hfits hst

/-! ## From one directory to another -/

variable [FastCDC] {d d' client : Disk} {input nptp : Bytes} {nameFlag : Option Text}
  {noCopy : Bool} {tree : Listing} {content : List FileName → Bytes} {files : List (Text × Bytes)}
  {name : Option Text} {ledger : Ledger Peer} {receipts : List Receipt}
  {key : Ed25519.SigningKey} {now : UInt64}

omit [Ed25519] [RaptorQ] in
theorem vetted_packedManifest (name : Option Text) (hsize : (treeBytes files).length < 2 ^ 64) :
    (packedManifest files name).Vetted (packedManifest files name).root :=
  ⟨rfl, beq_self_eq_true _, @Manifest.validate_fromFiles _ FastCDC.streaming files name hsize⟩

/-- What is served of packed files whose chunks are listed: the node is tended and provides their
manifest. -/
theorem cmdServe_packed (hsize : (treeBytes files).length < 2 ^ 64)
    (hrep : (packedManifest files name).Representable) (hd : d.Steady) (hlines : d.LinesRead)
    (hlists : ∀ p ∈ streamedPieces files, d.Lists (Hash.of p)) {e : EventLoop Peer}
    (hserve : cmdServe d (packedManifest files name).toNptp ledger receipts key now = .ok e) :
    e.Tended ∧ e.Provides (packedManifest files name).root (packedManifest files name) := by
  have hparse := Manifest.fromNptp_toNptp hrep []
  rw [List.append_nil] at hparse
  obtain ⟨s, d', hopen, ho⟩ := hd.open
  obtain ⟨-, -, hhashes, -⟩ := @covers_packedManifest _ _ files name hsize
  have hprovide : (EventLoop.new d' s ledger receipts key now : EventLoop Peer).step
      (.provide (packedManifest files name).root (packedManifest files name).toNptp) = some e := by
    simp only [cmdServe, hparse, hopen] at hserve
    exact congrArg some (Except.ok.inj hserve)
  have hbacks : (EventLoop.new d' s ledger receipts key now : EventLoop Peer).Tends
      (.provide (packedManifest files name).root (packedManifest files name).toNptp) := by
    refine ⟨_, hparse, vetted_packedManifest name hsize, fun g hg => ?_⟩
    rw [hhashes] at hg
    obtain ⟨p, hp, rfl⟩ := List.mem_map.mp hg
    exact ho.has _ (hlists p hp)
  refine ⟨EventLoop.step_tended (EventLoop.tended_new (ho.whole hlines) _ _ _ _) hbacks hprovide,
    (packedManifest files name).toNptp, ?_, hparse⟩
  cases hprovide
  exact Finmap.lookup_insert _

/-- A served directory arrives. One node packs a directory and, whatever has been done to the store
since, serves the manifest file; in whatever network it joins, another peer fetches the content id
some time later and asks this node first. Then the download is bound to succeed, as long as the node
stays, does not choke the peer, and its answers arrive, whatever the other providers and all the
others do; and what is written out is the directory, every file at its names and with its contents,
and nothing else. Or a string was stored on the way that differs from a chunk and has its digest. -/
theorem served_directory_arrives {refuses : List Bytes → Bool} {calls : List Call} {v : World}
    {before between : List (Sharing.Event Peer)} {w₀ w₁ w₂ w₃ : Sharing Peer} {q p : Peer}
    {e : EventLoop Peer} {others : List Peer} {s : Store} (hd : d.Steady)
    (hfiles : d.HoldsTree input tree content) (hpackable : tree.Packable content)
    (href : noCopy = true → ∀ names ∈ tree.filePaths, d.Referable (diskPath input names))
    (hname : ∀ n ∈ nameFlag.or (fileName input), n.bytes.length < 2 ^ 64)
    (hpack : cmdPack d input (.dir tree) nameFlag noCopy = (.ok nptp, d'))
    (hlater : Along World.step World.Steady ⟨d', []⟩ calls)
    (hcalls : runs World.step ⟨d', []⟩ calls = some v) (hlines : v.disk.LinesRead)
    (hserve : cmdServe v.disk nptp ledger receipts key now = .ok e)
    (hbefore : Along Sharing.step Sharing.Ok Sharing.empty before)
    (hrun : runs Sharing.step Sharing.empty before = some w₀)
    (hjoin : w₀.step (.join q e) = some w₁) {m : Manifest} (hm : Manifest.fromNptp nptp = .ok m)
    (hbetween : Along Sharing.step (fun w ev => w.Ok ev ∧ Sharing.Remains q m.root m ev) w₁
      between) (hrun' : runs Sharing.step w₁ between = some w₂) (hs : s.Whole client)
    (harrive : w₂.step (.arrive p m.root (q :: others) client s) = some w₃)
    (hfree : ∀ p, refuses p = false) (outFlag : Option Bytes) :
    Inevitably (Sharing.turn p) (Sharing.Fair q p m.root m) (fun w => ∃ c r,
      w.clients p = some c ∧ cmdFetchOutput refuses true c outFlag .empty = some r ∧
        ((∃ o, r = .ok o ∧ o.Restores tree content) ∨
          ∃ x ∈ streamedPieces (packedFiles tree content), ¬ c.download.disk.NoCollision x))
      w₃ := by
  obtain ⟨rfl, hsteady, hne, hlists⟩ := cmdPack_dir hd hfiles href hpack
  have hrep := representable_packedManifest hpackable hname
  have hparse := Manifest.fromNptp_toNptp hrep []
  rw [List.append_nil] at hparse
  have hpacked : packedManifest (packedFiles tree content) (nameFlag.or (fileName input)) = m :=
    Except.ok.inj (hparse.symm.trans hm)
  -- the store still has the chunks when it is served from
  have hlively : World.Lively ⟨d', []⟩ := ⟨hsteady, fun s hs => nomatch hs⟩
  have hkeeps := hlively.runs hlater hcalls
  have hserving : World.Serving (fun _ => True)
      ((streamedPieces (packedFiles tree content)).map Hash.of) ⟨d', []⟩ := by
    refine ⟨fun _ _ => trivial, fun g hg => ?_, fun k s _ hs => nomatch hs⟩
    obtain ⟨p, hp, rfl⟩ := List.mem_map.mp hg
    exact hlists p hp
  have hlisted := (hkeeps.serving _ _ hserving).listed
  obtain ⟨htended, hprovides⟩ := cmdServe_packed hpackable.size hrep hkeeps.lively.disk hlines
    (fun p hp => hlisted _ (List.mem_map_of_mem hp)) hserve
  rw [hpacked] at hprovides
  -- the node provides it until the peer comes
  have hok : w₀.Ok (.join q e) := htended
  have hsafe₁ : w₁.Safe := Sharing.step_safe (Sharing.safe_of_runs hbefore hrun) hok hjoin
  have hseeds₁ : w₁.Seeds q m.root m := by
    cases hjoin
    exact ⟨e, Function.update_self _ _ _, hprovides⟩
  obtain ⟨hsafe₂, hseeds₂⟩ : w₂.Safe ∧ w₂.Seeds q m.root m :=
    runs_invariant (I := fun w => w.Safe ∧ w.Seeds q m.root m) (fun w ev w' hI hev hstep =>
      ⟨Sharing.step_safe hI.1 hev.1 hstep, hI.2.step hI.1 hev.2 hstep⟩) ⟨hsafe₁, hseeds₁⟩ hbetween
      hrun'
  refine (Sharing.obtained_inevitable hsafe₂ hseeds₂ hs harrive).mono ?_
  rintro w ⟨c, hc, hsafe, hr⟩
  refine ⟨c, _, hc, by rw [cmdFetchOutput, hr], ?_⟩
  by_cases hnc : ∀ p ∈ streamedPieces (packedFiles tree content), c.download.disk.NoCollision p
  · obtain ⟨-, -, hhas⟩ := hsafe.done hr
    obtain ⟨-, -, hhashes, -⟩ := covers_packedManifest (nameFlag.or (fileName input)) hpackable.size
    rw [← hpacked] at hhas ⊢
    refine .inl (writeOutput_restores hpackable hne hfree hsafe.whole (fun p hp => hhas _ ?_) hnc
      outFlag)
    rw [hhashes]
    exact List.mem_map_of_mem hp
  · obtain ⟨p, hp, hcollides⟩ := not_forall₂.mp hnc
    exact .inr ⟨p, hp, hcollides⟩

end

/-- The directory that the file `x` is packed into. -/
def packedNestedX [Blake3] [FastCDC] : Disk :=
  (cmdPack diskOfNestedX (ascii "/d") (.dir nestedX) none false).2

/-- The node that serves it. -/
def serverOfNestedX [Blake3] [FastCDC] [Ed25519] [RaptorQ] (key : Ed25519.SigningKey) :
    Except CliError (EventLoop Nat) :=
  cmdServe packedNestedX nptpOfNestedX ⟨∅⟩ [] key 0

/-- The packed directory with the file `x` is served by the node 0, and the peer 1 fetches it. -/
theorem nested_x_arrives :
    let _ := blake3OfX
    let _ := minFastCDC
    let _ := ownSignatures
    let _ := oneSymbolCode
    ∃ e m w₁ w₂, serverOfNestedX (RepPeerId.ofByte 0) = .ok e ∧
      Manifest.fromNptp nptpOfNestedX = .ok m ∧ Sharing.empty.step (.join 0 e) = some w₁ ∧
      w₁.step (.arrive 1 m.root [0, 2] (Disk.fresh ∅ ∅ some) Store.fresh) = some w₂ ∧
      Inevitably (Sharing.turn 1) (Sharing.Fair 0 1 m.root m) (fun w => ∃ c o,
        w.clients 1 = some c ∧
        cmdFetchOutput (fun _ => false) true c none .empty = some (.ok o) ∧
        o.Restores nestedX fun _ => [120]) w₂ := by
  intro _ _ _ _
  have hpack : (cmdPack diskOfNestedX (ascii "/d") (.dir nestedX) none false).1 =
      .ok nptpOfNestedX := by
    decide +kernel
  have hlines : packedNestedX.LinesRead := by decide +kernel
  have hserved : (serverOfNestedX (RepPeerId.ofByte 0)).toOption.isSome := by decide +kernel
  have hparsed : (Manifest.fromNptp nptpOfNestedX).toOption.isSome := by decide +kernel
  obtain ⟨e, he⟩ := Option.isSome_iff_exists.mp hserved
  obtain ⟨m, hm⟩ := Option.isSome_iff_exists.mp hparsed
  have hsteady : diskOfNestedX.Steady := Store.whole_fresh.steady
  have hfiles : diskOfNestedX.HoldsTree (ascii "/d") nestedX fun _ => [120] := by
    intro names hnames
    obtain rfl := List.mem_singleton.mp hnames
    decide
  have href : false = true → ∀ names ∈ nestedX.filePaths,
      diskOfNestedX.Referable (diskPath (ascii "/d") names) := nofun
  have hlater (d : Disk) : Along World.step World.Steady ⟨d, []⟩ [] := trivial
  have hbefore : Along Sharing.step Sharing.Ok (Sharing.empty : Sharing Nat) [] := trivial
  have hjoin : Sharing.empty.step (.join 0 e) = some _ := rfl
  have hbetween (w : Sharing Nat) : Along Sharing.step
      (fun w ev => w.Ok ev ∧ Sharing.Remains 0 m.root m ev) w [] := trivial
  have harrive (w : Sharing Nat) : w.step (.arrive 1 m.root [0, 2] (Disk.fresh ∅ ∅ some)
    Store.fresh) = some _ := rfl
  have harrives := served_directory_arrives hsteady hfiles packable_nestedX href (by decide)
    (Prod.ext hpack rfl) (hlater _) rfl hlines (toOption_eq_some.mp he) hbefore rfl hjoin
    (toOption_eq_some.mp hm) (hbetween _) rfl Store.whole_fresh (harrive _)
    (fun _ : List Bytes => (rfl : false = false)) none
  refine ⟨e, m, _, _, toOption_eq_some.mp he, toOption_eq_some.mp hm, hjoin, harrive _,
    harrives.mono ?_⟩
  rintro w ⟨c, r, hc, hr, ⟨o, rfl, ho⟩ | ⟨p, hp, hno⟩⟩
  · exact ⟨c, o, hc, hr, ho⟩
  · refine absurd (fun other _ hh => ?_) hno
    have hpieces : streamedPieces (packedFiles nestedX fun _ => [120]) = [[120]] := by decide
    rw [hpieces] at hp
    rw [List.mem_singleton.mp hp] at hh ⊢
    exact eq_of_digestOfX hh

end Np2ptp
