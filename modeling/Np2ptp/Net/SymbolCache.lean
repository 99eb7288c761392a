import Np2ptp.Core.MerkleBinding
import Np2ptp.Core.Reconstruct
import Np2ptp.Net.Choke
import Np2ptp.Store.ExportLaws

/-!
# What a node still serves

`provided` says what a node serves, and `symbols` keeps the encodings that requests have made it
compute. Withdrawing a content id drops both, so nothing is answered for it until it is provided
again. Providing one again keeps the encoding: it was made of pieces whose hashes make up the id,
and the manifest provided now has the same id, so it lists the same pieces. What the id does not
commit to, the lengths and the file table, may differ, and then the encoding is still answered
where the new manifest is reconstructed to nothing (`serves_unreconstructible`).
-/

namespace Np2ptp

open Lib

section

variable [Blake3] [Ed25519] [RaptorQ] {Peer : Type}

/-! ## What changes the symbols and what is provided -/

/-- What `ensure_symbols` does: the symbols are there, or they cannot be made, or they are made of
what the provided manifest is reconstructed to. -/
theorem EventLoop.ensureSymbols_cases (e : EventLoop Peer) (root : Hash) :
    root ∈ e.symbols ∧ e.ensureSymbols root = (true, e) ∨
    root ∉ e.symbols ∧ (∃ s, e.ensureSymbols root = (false, { e with store := s })) ∨
    root ∉ e.symbols ∧ ∃ manifestBytes m full s, e.provided.lookup root = some manifestBytes ∧
      Manifest.fromNptp manifestBytes = .ok m ∧
      m.reconstruct (Store.getFlat e.disk) e.store = (.ok full, s) ∧
      e.ensureSymbols root = (true, { e with
        store := s
        symbols := e.symbols.insert root (Fec.encode full FEC_REPAIR_SYMBOLS).symbols }) := by
  unfold EventLoop.ensureSymbols
  split
  · next h => exact .inl ⟨h, rfl⟩
  · next h =>
    right
    split
    · exact .inl ⟨h, _, rfl⟩
    · next manifestBytes hprovided =>
      split
      · exact .inl ⟨h, _, rfl⟩
      · next m hm =>
        split
        · exact .inl ⟨h, _, rfl⟩
        · next full s hfull => exact .inr ⟨h, manifestBytes, m, full, s, hprovided, hm, hfull, rfl⟩

variable [DecidableEq Peer]

/-- Only a request for symbols touches the symbols. -/
theorem EventLoop.serve_symbols (e : EventLoop Peer) (q : Peer) (request : Net.Request) :
    (e.serve q request).2.symbols = e.symbols ∨
      ∃ root, (e.serve q request).2.symbols = (e.ensureSymbols root).2.symbols ∧
        (e.serve q request).2.store = (e.ensureSymbols root).2.store := by
  cases request with
  | chunk hash =>
    rw [EventLoop.serve]
    left
    split
    · rfl
    · split
      · rfl
      · rfl
      · rfl
  | symbol root index =>
    right
    refine ⟨root, ?_⟩
    rw [EventLoop.serve, EventLoop.symbol_eq]
    cases (e.symbolSet root)[index.toNat]? with
    | none => exact ⟨rfl, rfl⟩
    | some bytes => exact ⟨rfl, rfl⟩
  | symbols root start count =>
    right
    refine ⟨root, ?_⟩
    rw [EventLoop.serve]
    dsimp only
    rw [EventLoop.symbolsRange_eq]
    dsimp only
    split
    · exact ⟨rfl, rfl⟩
    · exact ⟨rfl, rfl⟩
  | submitReceipt receipt =>
    rw [EventLoop.serve]
    left
    split
    · rfl
    · rfl
  | _ => exact .inl rfl

/-- What an event does to the symbols and to what is provided. -/
theorem EventLoop.step_served {e e' : EventLoop Peer} {ev : NodeEvent Peer}
    (h : e.step ev = some e') :
    (∃ root bytes, ev = .provide root bytes ∧ e'.provided = e.provided.insert root bytes ∧
      e'.symbols = e.symbols) ∨
    (∃ root, ev = .unprovide root ∧ e'.provided = e.provided.erase root ∧
      e'.symbols = e.symbols.erase root) ∨
    e'.provided = e.provided ∧ (e'.symbols = e.symbols ∨
      ∃ root, e'.symbols = (e.ensureSymbols root).2.symbols ∧ e'.disk = e.disk ∧
        e'.store = (e.ensureSymbols root).2.store) := by
  cases ev with
  | request q request =>
    cases h
    obtain ⟨s, symbols, ledger, dirty, receipts, hframe⟩ := e.serve_frame q request
    refine .inr (.inr ⟨by rw [hframe], ?_⟩)
    refine (e.serve_symbols q request).imp_right fun ⟨root, hsymbols, hstore⟩ => ?_
    exact ⟨root, hsymbols, by rw [hframe], hstore⟩
  | response q id response =>
    cases h
    obtain ⟨ledger, dirty, h⟩ := e.onResponse_frame q id response
    rw [h]
    exact .inr (.inr ⟨rfl, .inl rfl⟩)
  | identified q key =>
    cases h
    obtain ⟨pulled, pending, next, h⟩ := e.onIdentified_frame q key
    rw [h]
    exact .inr (.inr ⟨rfl, .inl rfl⟩)
  | provide root bytes => cases h; exact .inl ⟨root, bytes, rfl, rfl, rfl⟩
  | unprovide root => cases h; exact .inr (.inl ⟨root, rfl, rfl, rfl⟩)
  | submitReceipt q bytes =>
    obtain ⟨epoch, pending, next, rfl⟩ := EventLoop.submitReceipt_frame h
    exact .inr (.inr ⟨rfl, .inl rfl⟩)
  | saveTick saved =>
    obtain ⟨dirty, rfl⟩ := EventLoop.saveTick_frame h
    exact .inr (.inr ⟨rfl, .inl rfl⟩)
  | _ => cases h; exact .inr (.inr ⟨rfl, .inl rfl⟩)

/-! ## Withdrawn content -/

/-- Neither provided nor kept as symbols. -/
def EventLoop.Withdrawn (e : EventLoop Peer) (root : Hash) : Prop :=
  root ∉ e.provided ∧ root ∉ e.symbols

omit [DecidableEq Peer] in
/-- Nothing can be made of withdrawn content. -/
theorem EventLoop.Withdrawn.ensureSymbols {e : EventLoop Peer} {root : Hash}
    (h : e.Withdrawn root) : e.ensureSymbols root = (false, e) := by
  rw [EventLoop.ensureSymbols, if_neg h.2, Finmap.lookup_eq_none.mpr h.1]

/-- Withdrawn content stays withdrawn until it is provided again. -/
theorem EventLoop.Withdrawn.step {e e' : EventLoop Peer} {ev : NodeEvent Peer} {root : Hash}
    (h : e.Withdrawn root) (hno : ∀ bytes, ev ≠ .provide root bytes)
    (hstep : e.step ev = some e') : e'.Withdrawn root := by
  rcases EventLoop.step_served hstep with ⟨g, bytes, rfl, hp, hs⟩ | ⟨g, rfl, hp, hs⟩ | ⟨hp, hs⟩
  · have hne : root ≠ g := by
      rintro rfl
      exact hno bytes rfl
    refine ⟨?_, by rw [hs]; exact h.2⟩
    rw [hp, Finmap.mem_insert]
    exact not_or.mpr ⟨hne, h.1⟩
  · refine ⟨?_, ?_⟩
    · rw [hp]
      exact fun hm => h.1 (Finmap.mem_erase.mp hm).2
    · rw [hs]
      exact fun hm => h.2 (Finmap.mem_erase.mp hm).2
  · refine ⟨by rw [hp]; exact h.1, ?_⟩
    rcases hs with hs | ⟨g, hs, -, -⟩
    · rw [hs]
      exact h.2
    · rw [hs]
      rcases e.ensureSymbols_cases g with ⟨-, he⟩ | ⟨-, s, he⟩ | ⟨-, b, m, full, s, hl, -, -, he⟩
      · rw [he]
        exact h.2
      · rw [he]
        exact h.2
      · have hne : root ≠ g := by
          rintro rfl
          exact h.1 (Finmap.mem_iff.mpr ⟨b, hl⟩)
        rw [he]
        dsimp only
        rw [Finmap.mem_insert]
        exact not_or.mpr ⟨hne, h.2⟩

/-- All that is answered for a content id comes from one list of symbols. -/
def EventLoop.Answers (e : EventLoop Peer) (root : Hash) (all : List Bytes) : Prop :=
  ∀ q index start count,
    (e.serve q (.symbol root index)).1 = .symbol all[index.toNat]? ∧
    (e.serve q (.symbols root start count)).1 =
      .symbols (symbolsIn all start.toNat (min count MAX_SYMBOLS_PER_BATCH).toNat)

/-- The symbols that are there or can be made are what is answered. -/
theorem EventLoop.answers_symbolSet (e : EventLoop Peer) (root : Hash) :
    e.Answers root (e.symbolSet root) := by
  intro q index start count
  constructor
  · rw [EventLoop.serve, EventLoop.symbol_eq]
    cases (e.symbolSet root)[index.toNat]? with
    | none => rfl
    | some bytes => rfl
  · rw [EventLoop.serve]
    dsimp only
    rw [EventLoop.symbolsRange_eq]

/-- Nothing is answered for withdrawn content. -/
theorem EventLoop.Withdrawn.silent {e : EventLoop Peer} {root : Hash} (h : e.Withdrawn root) :
    (∀ q, (e.serve q (.manifest root)).1 = .manifest none) ∧ e.Answers root [] := by
  refine ⟨fun q => ?_, ?_⟩
  · rw [EventLoop.serve, Finmap.lookup_eq_none.mpr h.1]
  · have hset : e.symbolSet root = [] := by rw [EventLoop.symbolSet, h.ensureSymbols]
    have hanswers := e.answers_symbolSet root
    rwa [hset] at hanswers

/-! ## Content kept -/

/-- The handle after reading some hashes in order. -/
abbrev Store.readAll (d : Disk) (s : Store) (hashes : List Hash) : Store :=
  fetchAll (Store.getFlat d) s hashes

/-- The piece is read for its hash, whatever is read before it. -/
def Store.Keeps (d : Disk) (s : Store) (piece : Bytes) : Prop :=
  ∀ before, ((s.readAll d before).getFlat d (Hash.of piece)).1 = some piece

/-- The contents of the store stay intact: a piece that has been read keeps being read, through
other reads and through the event. -/
structure EventLoop.Intact (e : EventLoop Peer) (ev : NodeEvent Peer) : Prop where
  read : ∀ before h piece, ((e.store.readAll e.disk before).getFlat e.disk h).1 = some piece →
    (e.store.readAll e.disk (before ++ [h])).Keeps e.disk piece
  kept : ∀ e' piece, e.step ev = some e' → e.store.Keeps e.disk piece →
    e'.store.Keeps e'.disk piece

omit [Ed25519] [RaptorQ] [DecidableEq Peer] in
/-- A piece that is kept is kept while others are read. -/
theorem Store.Keeps.readAll {d : Disk} {s : Store} {piece : Bytes} (h : s.Keeps d piece)
    (hashes : List Hash) : (s.readAll d hashes).Keeps d piece := by
  intro before
  rw [Store.readAll, Store.readAll, ← fetchAll_append]
  exact h _

omit [Ed25519] [RaptorQ] in
/-- Pieces that are kept are read one after the other. -/
theorem fetched_of_keeps {d : Disk} {s : Store} {pieces : List Bytes}
    (h : ∀ p ∈ pieces, s.Keeps d p) : Fetched (Store.getFlat d) s (pieces.map Hash.of) pieces := by
  induction pieces generalizing s with
  | nil => trivial
  | cons p pieces ih =>
    refine ⟨h p List.mem_cons_self [], ih fun q hq => ?_⟩
    exact (h q (List.mem_cons_of_mem _ hq)).readAll [Hash.of p]

/-- What has been read in a row is kept afterwards. -/
theorem EventLoop.Intact.fetched {e : EventLoop Peer} {ev : NodeEvent Peer} (h : e.Intact ev)
    {hashes : List Hash} {pieces : List Bytes} (before : List Hash)
    (hf : Fetched (Store.getFlat e.disk) (e.store.readAll e.disk before) hashes pieces) :
    ∀ p ∈ pieces, (e.store.readAll e.disk (before ++ hashes)).Keeps e.disk p := by
  induction hashes generalizing pieces before with
  | nil =>
    cases pieces with
    | nil => exact fun p hp => absurd hp List.not_mem_nil
    | cons p pieces => exact absurd hf id
  | cons g hashes ih =>
    cases pieces with
    | nil => exact absurd hf id
    | cons p pieces =>
      have hnext : ((e.store.readAll e.disk before).getFlat e.disk g).2 =
          e.store.readAll e.disk (before ++ [g]) := by
        rw [Store.readAll, Store.readAll, fetchAll_append]
        rfl
      have hsplit : before ++ g :: hashes = before ++ [g] ++ hashes := by simp
      intro q hq
      rw [hsplit]
      rcases List.mem_cons.mp hq with rfl | hq
      · have hkeeps := (h.read before g q hf.1).readAll hashes
        rwa [Store.readAll, ← fetchAll_append] at hkeeps
      · have htail := hf.2
        rw [hnext] at htail
        exact ih _ htail q hq

/-! ## Symbols and what is provided agree -/

/-- What is provided under a content id is a manifest of that id. -/
def NodeEvent.Consistent : NodeEvent Peer → Prop
  | .provide root manifestBytes => ∃ m, Manifest.fromNptp manifestBytes = .ok m ∧ m.root = root ∧
      m.rootIsConsistent = true
  | _ => True

/-- Symbols are kept for provided content alone, and encode pieces of the id that the store still
has. -/
structure EventLoop.Coherent (e : EventLoop Peer) : Prop where
  provided : ∀ root ∈ e.symbols, root ∈ e.provided
  consistent : ∀ root manifestBytes, e.provided.lookup root = some manifestBytes →
    ∃ m, Manifest.fromNptp manifestBytes = .ok m ∧ m.root = root ∧ m.rootIsConsistent = true
  encoded : ∀ root all, e.symbols.lookup root = some all → ∃ pieces : List Bytes,
    merkleRoot (pieces.map Hash.of) = root ∧
      all = (Fec.encode pieces.flatten FEC_REPAIR_SYMBOLS).symbols ∧
      ∀ p ∈ pieces, e.store.Keeps e.disk p

/-- Every event keeps symbols and manifests in agreement. -/
theorem EventLoop.step_coherent (e : EventLoop Peer) (ev : NodeEvent Peer) (e' : EventLoop Peer)
    (h : e.Coherent) (hok : ev.Consistent ∧ e.Intact ev) (hstep : e.step ev = some e') :
    e'.Coherent := by
  obtain ⟨hev, hintact⟩ := hok
  have hold : ∀ root all, e.symbols.lookup root = some all → ∃ pieces : List Bytes,
      merkleRoot (pieces.map Hash.of) = root ∧
        all = (Fec.encode pieces.flatten FEC_REPAIR_SYMBOLS).symbols ∧
        ∀ p ∈ pieces, e'.store.Keeps e'.disk p := by
    intro root all hall
    obtain ⟨pieces, hroot, henc, hkeeps⟩ := h.encoded root all hall
    exact ⟨pieces, hroot, henc, fun p hp => hintact.kept e' p hstep (hkeeps p hp)⟩
  rcases EventLoop.step_served hstep with ⟨g, bytes, rfl, hp, hs⟩ | ⟨g, rfl, hp, hs⟩ | ⟨hp, hs⟩
  · refine ⟨fun root hm => ?_, fun root b hl => ?_, by rw [hs]; exact hold⟩
    · rw [hs] at hm
      rw [hp, Finmap.mem_insert]
      exact .inr (h.provided root hm)
    · rw [hp] at hl
      by_cases hg : root = g
      · subst hg
        rw [Finmap.lookup_insert] at hl
        cases hl
        exact hev
      · rw [Finmap.lookup_insert_of_ne _ hg] at hl
        exact h.consistent root b hl
  · refine ⟨fun root hm => ?_, fun root b hl => ?_, fun root all hl => ?_⟩
    · rw [hs, Finmap.mem_erase] at hm
      rw [hp, Finmap.mem_erase]
      exact ⟨hm.1, h.provided root hm.2⟩
    · rw [hp] at hl
      by_cases hg : root = g
      · subst hg
        rw [Finmap.lookup_erase] at hl
        cases hl
      · rw [Finmap.lookup_erase_ne hg] at hl
        exact h.consistent root b hl
    · rw [hs] at hl
      by_cases hg : root = g
      · subst hg
        rw [Finmap.lookup_erase] at hl
        cases hl
      · rw [Finmap.lookup_erase_ne hg] at hl
        exact hold root all hl
  · have hconsistent : ∀ root b, e'.provided.lookup root = some b → ∃ m,
        Manifest.fromNptp b = .ok m ∧ m.root = root ∧ m.rootIsConsistent = true := by
      rw [hp]
      exact h.consistent
    rcases hs with hs | ⟨g, hs, hdisk, hstore⟩
    · exact ⟨by rw [hs, hp]; exact h.provided, hconsistent, by rw [hs]; exact hold⟩
    rcases e.ensureSymbols_cases g with ⟨-, he⟩ | ⟨-, s, he⟩ | ⟨-, b, m, full, s, hl, hm, hfull, he⟩
    · rw [he] at hs
      exact ⟨by rw [hs, hp]; exact h.provided, hconsistent, by rw [hs]; exact hold⟩
    · rw [he] at hs
      exact ⟨by rw [hs, hp]; exact h.provided, hconsistent, by rw [hs]; exact hold⟩
    · rw [he] at hs hstore
      refine ⟨fun root hm => ?_, hconsistent, fun root all hall => ?_⟩
      · rw [hs, Finmap.mem_insert] at hm
        rw [hp]
        rcases hm with rfl | hm
        · exact Finmap.mem_iff.mpr ⟨b, hl⟩
        · exact h.provided root hm
      · rw [hs] at hall
        by_cases hg : root = g
        · subst hg
          rw [Finmap.lookup_insert] at hall
          cases hall
          obtain ⟨rfl, pieces, hps, rfl, -⟩ := Manifest.reconstruct_eq_ok.mp hfull
          obtain ⟨m', hm', hroot, hcons⟩ := h.consistent root b hl
          obtain rfl : m = m' := Except.ok.inj (hm.symm.trans hm')
          refine ⟨pieces, ?_, rfl, ?_⟩
          · rw [hps.hashes, ← hroot]
            exact beq_iff_eq.mp hcons
          · rw [hstore, hdisk]
            exact hintact.fetched [] hps.fetched
        · rw [Finmap.lookup_insert_of_ne _ hg] at hall
          exact hold root all hall

/-- What is answered for a content id is nothing, or the symbols of pieces that the manifest
provided for it lists, absent a collision of hashes. The manifest is reconstructed to these pieces
if it validates and its total is their length, and otherwise to nothing. -/
def EventLoop.ServesProvided (e : EventLoop Peer) (root : Hash) : Prop :=
  e.Answers root [] ∨ ∃ manifestBytes m, ∃ pieces : List Bytes,
    e.provided.lookup root = some manifestBytes ∧ Manifest.fromNptp manifestBytes = .ok m ∧
    e.Answers root (Fec.encode pieces.flatten FEC_REPAIR_SYMBOLS).symbols ∧
    (Collision Hash.of (rootStrings (pieces.map Hash.of)) (rootStrings m.hashes) ∨
      pieces.map Hash.of = m.hashes ∧
      ∀ full, (m.reconstruct (Store.getFlat e.disk) e.store).1 = .ok full ↔
        full = pieces.flatten ∧ m.validate = .ok () ∧ full.length = m.totalSize.toNat)

/-- A node whose symbols and manifests agree serves what it provides. -/
theorem EventLoop.Coherent.answers {e : EventLoop Peer} (h : e.Coherent) (root : Hash) :
    e.ServesProvided root := by
  have hanswers := e.answers_symbolSet root
  rcases e.ensureSymbols_cases root with
    ⟨hmem, he⟩ | ⟨-, s, he⟩ | ⟨-, b, m, full, s, hl, hm, hfull, he⟩
  · right
    obtain ⟨all, hall⟩ := Finmap.mem_iff.mp hmem
    obtain ⟨b, hl⟩ := Finmap.mem_iff.mp (h.provided root hmem)
    obtain ⟨m, hm, hroot, hcons⟩ := h.consistent root b hl
    obtain ⟨pieces, hpieces, rfl, hkeeps⟩ := h.encoded root all hall
    have hset : e.symbolSet root = (Fec.encode pieces.flatten FEC_REPAIR_SYMBOLS).symbols := by
      rw [EventLoop.symbolSet, he]
      dsimp only
      rw [hall, Option.getD_some]
    rw [hset] at hanswers
    refine ⟨b, m, pieces, hl, hm, hanswers, ?_⟩
    have hroots : merkleRoot (pieces.map Hash.of) = merkleRoot m.hashes := by
      rw [hpieces, ← hroot]
      exact (beq_iff_eq.mp hcons).symm
    rcases merkle_root_binds hroots with hhashes | hc
    · refine .inr ⟨hhashes, Manifest.reconstruct_of_fetched hcons hhashes ?_⟩
      rw [← hhashes]
      exact fetched_of_keeps hkeeps
    · exact .inl hc
  · left
    have hset : e.symbolSet root = [] := by rw [EventLoop.symbolSet, he]
    rwa [hset] at hanswers
  · right
    obtain ⟨m', hm', -, hcons⟩ := h.consistent root b hl
    obtain rfl : m = m' := Except.ok.inj (hm.symm.trans hm')
    obtain ⟨-, pieces, hps, rfl, -⟩ := Manifest.reconstruct_eq_ok.mp hfull
    have hset : e.symbolSet root = (Fec.encode pieces.flatten FEC_REPAIR_SYMBOLS).symbols := by
      rw [EventLoop.symbolSet, he]
      dsimp only
      rw [Finmap.lookup_insert, Option.getD_some]
    rw [hset] at hanswers
    exact ⟨b, m, pieces, hl, hm, hanswers,
      .inr ⟨hps.hashes, Manifest.reconstruct_of_fetched hcons hps.hashes hps.fetched⟩⟩

/-- What is served follows what is provided, in every run of a new node whose user provides
manifests of their own ids and whose store stays intact. After a content id is withdrawn and until
it is provided again nothing is answered for it. Symbols that are answered for an id are those of
the pieces that the manifest provided now lists, to which it is reconstructed if its lengths and its
file table, which the id does not commit to, fit them. -/
theorem serve_follows_provided {disk : Disk} {store : Store} {ledger : Ledger Peer}
    {receipts : List Receipt} {repIdentity : Ed25519.SigningKey} {now : UInt64}
    {events : List (NodeEvent Peer)} {e : EventLoop Peer}
    (hrun : runs EventLoop.step
      (EventLoop.new disk store ledger receipts repIdentity now) events = some e)
    (hconsistent : ∀ ev ∈ events, ev.Consistent)
    (hintact : Along EventLoop.step EventLoop.Intact
      (EventLoop.new disk store ledger receipts repIdentity now) events) :
    (∀ before root after, events = before ++ .unprovide root :: after →
      (∀ bytes, .provide root bytes ∉ after) →
      (∀ q, (e.serve q (.manifest root)).1 = .manifest none) ∧ e.Answers root []) ∧
    ∀ root, e.ServesProvided root := by
  constructor
  · rintro before root after rfl hno
    obtain ⟨e₁, -, hrest⟩ := runs_append.mp hrun
    obtain ⟨e₂, hunprovide, hafter⟩ := runs_cons.mp hrest
    have hstart : e₂.Withdrawn root := by
      cases hunprovide
      exact ⟨Finmap.notMem_erase_self, Finmap.notMem_erase_self⟩
    have hothers : ∀ ev ∈ after, ∀ bytes, ev ≠ .provide root bytes := by
      rintro ev hev bytes rfl
      exact hno bytes hev
    have hkeeps : ∀ (e : EventLoop Peer) ev e', e.Withdrawn root →
        (∀ bytes, ev ≠ .provide root bytes) → e.step ev = some e' → e'.Withdrawn root :=
      fun e ev e' hw hok hs => hw.step hok hs
    have hend := runs_invariant hkeeps hstart (along_of_mem e₂ hothers) hafter
    exact hend.silent
  · have hstart : (EventLoop.new disk store ledger receipts repIdentity now).Coherent :=
      ⟨fun _ hm => absurd hm Finmap.notMem_empty, fun _ _ hl => (by cases hl),
        fun _ _ hl => (by cases hl)⟩
    have hend := runs_invariant EventLoop.step_coherent hstart
      ((along_of_mem _ hconsistent).and hintact) hrun
    exact hend.answers

end

/-! ## One byte, provided twice -/

/-- The manifest of the one byte `x`, and one of the same id that lists two bytes. -/
def manifestOfX : Manifest :=
  @Manifest.fromFiles blake3OfX minFastCDC [(dataPath, [120])] none

def longManifestOfX : Manifest := { manifestOfX with totalSize := 2 }

/-- A new node on a directory with the byte. -/
def newNodeOfX : @EventLoop Unit noSignatures :=
  let _ := noSignatures
  .new nodeOfX.disk nodeOfX.store ⟨∅⟩ [] (.ofByte 0) 0

/-- The byte is provided and asked for, and the other manifest is provided. -/
def provideTwice : List (NodeEvent Unit) :=
  [.provide rootOfX manifestOfX.toNptp, symbolsOfX, .provide rootOfX longManifestOfX.toNptp]

/-- Both manifests are those of their id, and yet the symbols of the byte are answered when the
manifest that is provided is reconstructed to nothing. -/
theorem serves_unreconstructible :
    let _ := blake3OfX
    let _ := noSignatures
    let _ := oneSymbolCode
    (manifestOfX.root = rootOfX ∧ manifestOfX.rootIsConsistent = true) ∧
    (longManifestOfX.root = rootOfX ∧ longManifestOfX.rootIsConsistent = true) ∧
    (runs EventLoop.step newNodeOfX provideTwice).map (fun e =>
      (decide (e.provided.lookup rootOfX = some longManifestOfX.toNptp),
        (longManifestOfX.reconstruct (Store.getFlat e.disk) e.store).1,
        (e.serve () (.symbols rootOfX 0 128)).1.content)) =
      some (true, .error (.sizeMismatch 1 2), 78260) := by
  decide +kernel

section

variable [Blake3] [Ed25519] [RaptorQ] {e : EventLoop Unit} {ev : NodeEvent Unit}

/-- Reading changes nothing in the handle. -/
def EventLoop.Still (e : EventLoop Unit) : Prop :=
  ∀ h, (e.store.getFlat e.disk h).2 = e.store

omit [RaptorQ] in
/-- So it is where the handle has read all of the index. -/
theorem EventLoop.still_of_end (hend : e.disk.index.length ≤ e.store.packIndexPos) :
    e.Still := by
  intro h
  have hrefresh : e.store.refreshPackIndex e.disk = some e.store := by
    rw [Store.refreshPackIndex, refreshTail, if_pos hend]
    rfl
  have hget : (e.store.get e.disk h).2 = e.store := by
    unfold Store.get
    rw [hrefresh]
    split
    · rfl
    · rfl
    · split
      · rfl
      · rfl
      · split
        · rfl
        · rfl
        · rfl
  rw [Store.getFlat]
  rcases hg : e.store.get e.disk h with ⟨_ | opt, s⟩
  · rw [hg] at hget
    exact hget
  · rw [hg] at hget
    exact hget

theorem EventLoop.Still.ensureSymbols (hstill : e.Still) (root : Hash) :
    (e.ensureSymbols root).2.store = e.store := by
  have hfetch : ∀ s h, s = e.store → (Store.getFlat e.disk s h).2 = e.store := by
    rintro _ h rfl
    exact hstill h
  unfold EventLoop.ensureSymbols
  split
  · rfl
  · split
    · rfl
    · split
      · rfl
      · next m hm =>
        have hkept := Manifest.reconstruct_keeps (m := m) hfetch rfl
        rcases hr : m.reconstruct (Store.getFlat e.disk) e.store with ⟨_ | full, s'⟩
        · rw [hr] at hkept
          exact hkept
        · rw [hr] at hkept
          exact hkept

/-- An event that leaves the directory and such a handle as they are leaves the store intact. -/
theorem EventLoop.Still.intact (hstill : e.Still)
    (hsame : ∀ e', e.step ev = some e' → e'.disk = e.disk ∧ e'.store = e.store) : e.Intact ev := by
  have hall : ∀ before, e.store.readAll e.disk before = e.store := by
    intro before
    induction before with
    | nil => rfl
    | cons h before ih =>
      show fetchAll _ (e.store.getFlat e.disk h).2 before = _
      rw [hstill]
      exact ih
  refine ⟨fun before h piece hread => ?_, fun e' piece hstep hkeeps => ?_⟩
  · rw [hall] at hread ⊢
    have hhash : Hash.of piece = h := by
      rw [Store.getFlat] at hread
      rcases hg : e.store.get e.disk h with ⟨_ | opt, s⟩
      · rw [hg] at hread
        cases hread
      · rw [hg] at hread
        obtain rfl : opt = some piece := hread
        exact Store.hash_of_get hg
    intro others
    rw [hall, hhash]
    exact hread
  · obtain ⟨hdisk, hstore⟩ := hsame e' hstep
    rw [hdisk, hstore]
    exact hkeeps

end

/-- The handle that is opened on the directory with the byte. -/
def openedOfX : Disk × Store :=
  let _ := noSignatures
  match Store.open nodeOfX.disk with
  | (.ok s, d) => (d, s)
  | (.error _, d) => (d, Store.fresh)

def openedNodeOfX : @EventLoop Unit noSignatures :=
  let _ := noSignatures
  .new openedOfX.1 openedOfX.2 ⟨∅⟩ [] (.ofByte 0) 0

/-- The byte is provided and its symbols are asked for. -/
def provideAndServe : List (NodeEvent Unit) := [.provide rootOfX manifestOfX.toNptp, symbolsOfX]

/-- The events of this kind leave the directory and the handle of the node as they are. -/
theorem EventLoop.Still.step [Blake3] [Ed25519] [RaptorQ] {e e' : EventLoop Unit}
    {ev : NodeEvent Unit} (hstill : e.Still)
    (hev : ev ∈ provideAndServe ++ .unprovide rootOfX :: provideAndServe)
    (hstep : e.step ev = some e') : e'.disk = e.disk ∧ e'.store = e.store := by
  have hkind : (∃ bytes, ev = .provide rootOfX bytes) ∨ ev = symbolsOfX ∨
      ev = .unprovide rootOfX := by
    simp only [provideAndServe, List.cons_append, List.nil_append, List.mem_cons,
      List.not_mem_nil, or_false] at hev
    rcases hev with rfl | rfl | rfl | rfl | rfl
    · exact .inl ⟨_, rfl⟩
    · exact .inr (.inl rfl)
    · exact .inr (.inr rfl)
    · exact .inl ⟨_, rfl⟩
    · exact .inr (.inl rfl)
  rcases hkind with ⟨bytes, rfl⟩ | rfl | rfl
  · cases hstep
    exact ⟨rfl, rfl⟩
  · cases hstep
    obtain ⟨s, symbols, ledger, dirty, receipts, hframe⟩ :=
      e.serve_frame () (.symbols rootOfX 0 128)
    refine ⟨by rw [hframe], ?_⟩
    rw [EventLoop.serve, EventLoop.symbolsRange_eq]
    dsimp only
    split
    · exact hstill.ensureSymbols rootOfX
    · exact hstill.ensureSymbols rootOfX
  · cases hstep
    exact ⟨rfl, rfl⟩

/-- The byte is provided and served, withdrawn, and provided and served again. -/
theorem serve_follows_provided_x :
    let _ := blake3OfX
    let _ := noSignatures
    let _ := oneSymbolCode
    ∃ e e', runs EventLoop.step openedNodeOfX (provideAndServe ++ [.unprovide rootOfX]) = some e ∧
      ((∀ q, (e.serve q (.manifest rootOfX)).1 = .manifest none) ∧ e.Answers rootOfX []) ∧
      runs EventLoop.step openedNodeOfX
        (provideAndServe ++ .unprovide rootOfX :: provideAndServe) = some e' ∧
      e'.ServesProvided rootOfX ∧ (e'.serve () (.symbols rootOfX 0 128)).1.content = 78260 := by
  have hend : (runs (@EventLoop.step blake3OfX noSignatures oneSymbolCode Unit _) openedNodeOfX
      (provideAndServe ++ .unprovide rootOfX :: provideAndServe)).map (fun e =>
        (@EventLoop.serve blake3OfX noSignatures oneSymbolCode Unit _ e ()
          (.symbols rootOfX 0 128)).1.content) = some 78260 := by
    decide +kernel
  have hread : openedOfX.1.index.length ≤ openedOfX.2.packIndexPos := by decide +kernel
  have hparse : ∃ m, Manifest.fromNptp manifestOfX.toNptp = .ok m ∧ m.root = rootOfX ∧
      @Manifest.rootIsConsistent blake3OfX m = true := ⟨manifestOfX, by decide +kernel⟩
  intro _ _ _
  obtain ⟨e', hrun', hserved⟩ := Option.map_eq_some_iff.mp hend
  have hsplit : provideAndServe ++ .unprovide rootOfX :: provideAndServe =
      (provideAndServe ++ [.unprovide rootOfX]) ++ provideAndServe := by
    rw [List.append_assoc]
    rfl
  obtain ⟨e, hrun, -⟩ := runs_append.mp (hsplit ▸ hrun')
  have hconsistent : ∀ ev ∈ provideAndServe ++ .unprovide rootOfX :: provideAndServe,
      ev.Consistent := by
    intro ev hev
    simp only [provideAndServe, List.cons_append, List.nil_append, List.mem_cons,
      List.not_mem_nil, or_false] at hev
    rcases hev with rfl | rfl | rfl | rfl | rfl
    · exact hparse
    · trivial
    · trivial
    · exact hparse
    · trivial
  have hstill : ∀ e : EventLoop Unit, e.disk = openedNodeOfX.disk ∧
      e.store = openedNodeOfX.store → e.Still := by
    rintro e ⟨hdisk, hstore⟩ h
    rw [hdisk, hstore]
    exact EventLoop.still_of_end hread h
  have hintact : Along EventLoop.step EventLoop.Intact openedNodeOfX
      (provideAndServe ++ .unprovide rootOfX :: provideAndServe) := by
    have hsame := Along.invariant (I := fun e : EventLoop Unit =>
      e.disk = openedNodeOfX.disk ∧ e.store = openedNodeOfX.store)
      (fun e ev e' hsame hev hstep => by
        obtain ⟨hdisk, hstore⟩ := (hstill e hsame).step hev hstep
        exact ⟨hdisk.trans hsame.1, hstore.trans hsame.2⟩) ⟨rfl, rfl⟩
      (along_of_mem openedNodeOfX fun ev hev => hev)
    refine hsame.mono fun e ev h => (hstill e h.1).intact fun e' hstep => ?_
    exact (hstill e h.1).step h.2 hstep
  refine ⟨e, e', hrun, ?_, hrun', ?_, hserved⟩
  · refine (serve_follows_provided hrun ?_ ?_).1 provideAndServe rootOfX [] rfl
      fun _ => List.not_mem_nil
    · intro ev hev
      apply hconsistent ev
      rw [hsplit]
      exact List.mem_append_left _ hev
    · rw [hsplit] at hintact
      exact hintact.left
  · exact (serve_follows_provided hrun' hconsistent hintact).2 rootOfX

end Np2ptp
