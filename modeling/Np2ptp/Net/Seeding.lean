import Np2ptp.Net.Choke
import Np2ptp.Store.Whole

/-!
# A node that seeds

What a node provides it should have: a manifest that passes every check of a client, and all its
chunks. A node whose user provides nothing else is tended (`EventLoop.Tended`), and no event of the
network changes that, whatever other peers send (`EventLoop.step_tended`). A tended node that does
not choke answers every request for what it provides with exactly that
(`EventLoop.Provides.serve_manifest`, `EventLoop.Tended.serve_chunk`), and nothing that it sends is
ever wrong (`EventLoop.Tended.sends_right`): since content is named by its hash, an answer stays
right for as long as it is under way.
-/

namespace Np2ptp

open Lib

section

variable [Blake3] [Ed25519] [RaptorQ] {Peer : Type}

/-! ## What a node provides -/

/-- The node provides a manifest that lists the chunk. -/
def EventLoop.Lists (e : EventLoop Peer) (h : Hash) : Prop :=
  ∃ root bytes m, e.provided.lookup root = some bytes ∧ Manifest.fromNptp bytes = .ok m ∧
    h ∈ m.hashes

/-- The bytes are a manifest of the content id, and the node has its chunks. -/
def EventLoop.Backs (e : EventLoop Peer) (root : Hash) (bytes : Bytes) : Prop :=
  ∃ m, Manifest.fromNptp bytes = .ok m ∧ m.Vetted root ∧ ∀ h ∈ m.hashes, e.store.Has e.disk h

/-- The node is tended: it backs all that it provides, on a whole directory. -/
structure EventLoop.Tended (e : EventLoop Peer) : Prop where
  whole : e.store.Whole e.disk
  backs : ∀ root bytes, e.provided.lookup root = some bytes → e.Backs root bytes

/-- The user provides only what the node backs, and the other users of the store leave what it
provides in place. -/
def EventLoop.Tends (e : EventLoop Peer) : NodeEvent Peer → Prop
  | .provide root bytes => e.Backs root bytes
  | .storage d s => s.Whole d ∧ ∀ h, e.Lists h → s.Has d h
  | _ => True

omit [RaptorQ] in
/-- A new node provides nothing. -/
theorem EventLoop.tended_new {d : Disk} {s : Store} (hw : s.Whole d) (ledger : Ledger Peer)
    (receipts : List Receipt) (key : Ed25519.SigningKey) (now : UInt64) :
    (EventLoop.new d s ledger receipts key now).Tended :=
  ⟨hw, fun _ _ h => nomatch h⟩

/-! ## Events -/

/-- Making a symbol set only reads. -/
theorem EventLoop.ensureSymbols_kept {e : EventLoop Peer} (hw : e.store.Whole e.disk)
    (root : Hash) : Store.Kept e.disk e.store (e.ensureSymbols root).2.store := by
  have hfetch : ∀ s h, Store.Kept e.disk e.store s →
      Store.Kept e.disk e.store (Store.getFlat e.disk s h).2 := by
    intro s h hs
    have hget := hs.trans (hs.whole.get h)
    rw [Store.getFlat]
    rcases hg : s.get e.disk h with ⟨_ | opt, s'⟩
    · rwa [hg] at hget
    · rwa [hg] at hget
  unfold EventLoop.ensureSymbols
  split
  · exact hw.kept
  · split
    · exact hw.kept
    · split
      · exact hw.kept
      · next m hm =>
        have hkept := Manifest.reconstruct_keeps (m := m) hfetch hw.kept
        rcases hr : m.reconstruct (Store.getFlat e.disk) e.store with ⟨_ | full, s'⟩
        · rw [hr] at hkept
          exact hkept
        · rw [hr] at hkept
          exact hkept

variable [DecidableEq Peer]

/-- Serving a request only reads, whatever is asked for. -/
theorem EventLoop.serve_kept {e : EventLoop Peer} (hw : e.store.Whole e.disk) (q : Peer)
    (request : Net.Request) : Store.Kept e.disk e.store (e.serve q request).2.store := by
  cases request with
  | chunk hash =>
    have hget := hw.get hash
    rw [EventLoop.serve]
    split
    · exact hw.kept
    · rcases hg : e.store.get e.disk hash with ⟨_ | ⟨_ | data⟩, s⟩
      · rwa [hg] at hget
      · rwa [hg] at hget
      · rwa [hg] at hget
  | symbol root index =>
    have hkept := EventLoop.ensureSymbols_kept hw root
    rw [EventLoop.serve, EventLoop.symbol_eq]
    cases (e.symbolSet root)[index.toNat]? with
    | none => exact hkept
    | some bytes => exact hkept
  | symbols root start count =>
    have hkept := EventLoop.ensureSymbols_kept hw root
    rw [EventLoop.serve]
    dsimp only
    rw [EventLoop.symbolsRange_eq]
    dsimp only
    split
    · exact hkept
    · exact hkept
  | submitReceipt receipt =>
    rw [EventLoop.serve]
    split
    · exact hw.kept
    · exact hw.kept
  | manifest root => exact hw.kept
  | getReceipts => exact hw.kept

/-- What an event does to what the node provides and has: the user changes the one or the other, or
the store is read at most. -/
theorem EventLoop.step_stock {e e' : EventLoop Peer} {ev : NodeEvent Peer}
    (hw : e.store.Whole e.disk) (hstep : e.step ev = some e') :
    (∃ root bytes, ev = .provide root bytes ∧
        e' = { e with provided := e.provided.insert root bytes }) ∨
      (∃ root, ev = .unprovide root ∧ e' = { e with
        provided := e.provided.erase root, symbols := e.symbols.erase root }) ∨
      (∃ d s, ev = .storage d s ∧ e' = { e with disk := d, store := s }) ∨
      (e'.disk = e.disk ∧ e'.provided = e.provided ∧ Store.Kept e.disk e.store e'.store) := by
  cases ev with
  | request q request =>
    cases hstep
    obtain ⟨s, symbols, ledger, dirty, receipts, he⟩ := e.serve_frame q request
    have hkept := EventLoop.serve_kept hw q request
    rw [he] at hkept ⊢
    exact .inr (.inr (.inr ⟨rfl, rfl, hkept⟩))
  | response q id response =>
    cases hstep
    obtain ⟨ledger, dirty, he⟩ := e.onResponse_frame q id response
    rw [he]
    exact .inr (.inr (.inr ⟨rfl, rfl, hw.kept⟩))
  | identified q key =>
    cases hstep
    obtain ⟨pulled, pending, next, he⟩ := e.onIdentified_frame q key
    rw [he]
    exact .inr (.inr (.inr ⟨rfl, rfl, hw.kept⟩))
  | submitReceipt q bytes =>
    obtain ⟨epoch, pending, next, rfl⟩ := EventLoop.submitReceipt_frame hstep
    exact .inr (.inr (.inr ⟨rfl, rfl, hw.kept⟩))
  | saveTick saved =>
    obtain ⟨dirty, rfl⟩ := EventLoop.saveTick_frame hstep
    exact .inr (.inr (.inr ⟨rfl, rfl, hw.kept⟩))
  | provide root bytes =>
    cases hstep
    exact .inl ⟨root, bytes, rfl, rfl⟩
  | unprovide root =>
    cases hstep
    exact .inr (.inl ⟨root, rfl, rfl⟩)
  | storage d s =>
    cases hstep
    exact .inr (.inr (.inl ⟨d, s, rfl, rfl⟩))
  | _ =>
    cases hstep
    exact .inr (.inr (.inr ⟨rfl, rfl, hw.kept⟩))

/-- One event keeps a node tended. -/
theorem EventLoop.step_tended {e e' : EventLoop Peer} {ev : NodeEvent Peer} (h : e.Tended)
    (hok : e.Tends ev) (hstep : e.step ev = some e') : e'.Tended := by
  rcases EventLoop.step_stock h.whole hstep with ⟨root, bytes, rfl, rfl⟩ | ⟨root, rfl, rfl⟩ |
    ⟨d, s, rfl, rfl⟩ | ⟨hdisk, hprovided, hkept⟩
  · refine ⟨h.whole, fun root' bytes' hl => ?_⟩
    by_cases he : root' = root
    · subst he
      have hl : (e.provided.insert root' bytes).lookup root' = some bytes' := hl
      rw [Finmap.lookup_insert, Option.some.injEq] at hl
      subst hl
      exact hok
    · exact h.backs root' bytes' ((Finmap.lookup_insert_of_ne _ he).symm.trans hl)
  · refine ⟨h.whole, fun root' bytes hl => ?_⟩
    by_cases he : root' = root
    · subst he
      have hl : (e.provided.erase root').lookup root' = some bytes := hl
      rw [Finmap.lookup_erase] at hl
      cases hl
    · exact h.backs root' bytes ((Finmap.lookup_erase_ne he).symm.trans hl)
  · refine ⟨hok.1, fun root bytes hl => ?_⟩
    obtain ⟨m, hparse, hvetted, -⟩ := h.backs root bytes hl
    exact ⟨m, hparse, hvetted, fun g hg => hok.2 g ⟨root, bytes, m, hl, hparse, hg⟩⟩
  · refine ⟨hdisk ▸ hkept.whole, fun root bytes hl => ?_⟩
    rw [hprovided] at hl
    obtain ⟨m, hparse, hvetted, hhas⟩ := h.backs root bytes hl
    exact ⟨m, hparse, hvetted, fun g hg => hdisk ▸ hkept.has g (hhas g hg)⟩

/-- The node provides the manifest under the content id. -/
def EventLoop.Provides (e : EventLoop Peer) (root : Hash) (m : Manifest) : Prop :=
  ∃ bytes, e.provided.lookup root = some bytes ∧ Manifest.fromNptp bytes = .ok m

/-- The user does not take the manifest away. -/
def NodeEvent.Leaves (root : Hash) (m : Manifest) : NodeEvent Peer → Prop
  | .provide root' bytes => root' = root → Manifest.fromNptp bytes = .ok m
  | .unprovide root' => root' ≠ root
  | _ => True

/-- What is not taken away is provided on. -/
theorem EventLoop.step_provides {e e' : EventLoop Peer} {ev : NodeEvent Peer} {root : Hash}
    {m : Manifest} (hw : e.store.Whole e.disk) (h : e.Provides root m) (hok : ev.Leaves root m)
    (hstep : e.step ev = some e') : e'.Provides root m := by
  obtain ⟨bytes, hl, hparse⟩ := h
  rcases EventLoop.step_stock hw hstep with ⟨root', bytes', rfl, rfl⟩ | ⟨root', rfl, rfl⟩ |
    ⟨d, s, rfl, rfl⟩ | ⟨-, hprovided, -⟩
  · by_cases he : root' = root
    · subst he
      exact ⟨bytes', Finmap.lookup_insert _, hok rfl⟩
    · exact ⟨bytes, (Finmap.lookup_insert_of_ne _ (Ne.symm he)).trans hl, hparse⟩
  · exact ⟨bytes, (Finmap.lookup_erase_ne (Ne.symm hok)).trans hl, hparse⟩
  · exact ⟨bytes, hl, hparse⟩
  · exact ⟨bytes, hprovided ▸ hl, hparse⟩

/-! ## Answers -/

/-- The response is right about what was asked for, or says that there is no answer. -/
def Net.Response.Right : Net.Request → Net.Response → Prop
  | .manifest root, .manifest (some bytes) =>
    ∃ m, Manifest.fromNptp bytes = .ok m ∧ m.Vetted root
  | .manifest _, .manifest none => True
  | .chunk hash, .chunk (some data) => Hash.of data = hash
  | .chunk _, .chunk none => True
  | .manifest _, _ => False
  | .chunk _, _ => False
  | _, _ => True

/-- A tended node sends nothing wrong. -/
theorem EventLoop.Tended.sends_right {e : EventLoop Peer} (h : e.Tended) (q : Peer)
    (request : Net.Request) : (e.serve q request).1.Right request := by
  cases request with
  | manifest root =>
    rw [EventLoop.serve]
    cases hl : e.provided.lookup root with
    | none => trivial
    | some bytes =>
      obtain ⟨m, hparse, hvetted, -⟩ := h.backs root bytes hl
      exact ⟨m, hparse, hvetted⟩
  | chunk hash =>
    rw [EventLoop.serve]
    split
    · trivial
    · rcases hg : e.store.get e.disk hash with ⟨_ | ⟨_ | data⟩, s⟩
      · trivial
      · trivial
      · exact Store.hash_of_get hg
  | _ => trivial

/-- A manifest that is provided is what is sent. -/
theorem EventLoop.Provides.serve_manifest {e : EventLoop Peer} {root : Hash} {m : Manifest}
    (h : e.Provides root m) (q : Peer) : ∃ bytes,
      (e.serve q (.manifest root)).1 = .manifest (some bytes) ∧
      Manifest.fromNptp bytes = .ok m := by
  obtain ⟨bytes, hl, hparse⟩ := h
  refine ⟨bytes, ?_, hparse⟩
  rw [EventLoop.serve, hl]

omit [RaptorQ] [DecidableEq Peer] in
/-- What a tended node provides is vetted, and it has the chunks. -/
theorem EventLoop.Tended.provides {e : EventLoop Peer} (h : e.Tended) {root : Hash} {m : Manifest}
    (hm : e.Provides root m) : m.Vetted root ∧ ∀ g ∈ m.hashes, e.store.Has e.disk g := by
  obtain ⟨bytes, hl, hparse⟩ := hm
  obtain ⟨m', hparse', hvetted, hhas⟩ := h.backs root bytes hl
  rw [hparse] at hparse'
  cases hparse'
  exact ⟨hvetted, hhas⟩

/-- A chunk that the node has is what is sent, to a peer that is not choked. -/
theorem EventLoop.Tended.serve_chunk {e : EventLoop Peer} (h : e.Tended) {q : Peer} {hash : Hash}
    (hchoke : e.chokes q = false) (hhas : e.store.Has e.disk hash) :
    ∃ data, (e.serve q (.chunk hash)).1 = .chunk (some data) ∧ Hash.of data = hash := by
  obtain ⟨data, hread⟩ := h.whole.reads hhas
  rcases hg : e.store.get e.disk hash with ⟨r, s⟩
  rw [hg] at hread
  obtain rfl : r = .ok (some data) := hread
  refine ⟨data, ?_, Store.hash_of_get hg⟩
  rw [EventLoop.serve, hchoke, hg]
  rfl

end

end Np2ptp
