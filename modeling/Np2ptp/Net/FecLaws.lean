import Np2ptp.Fec.Schedule
import Np2ptp.Net.Choke
import Np2ptp.Net.FecDownload
import Np2ptp.Store.IngestLaws

/-!
# When a download from symbols succeeds

A provider that seeds some content (`Seeds`, as `serve` does by `EventLoop.serve_seeds`) sends the
symbols of its encoding in order. The loop then holds a prefix of them, and what it does next is a
matter of numbers (`FecLoop.Reached.turn`): it tries to decode as the schedule says, and gives up
when the symbols it holds are more than twice the content. The content comes through exactly when
the first try that is enough stays below that.
-/

namespace Np2ptp

open Lib

section

variable [RaptorQ]

/-- The provider seeds some content: it has the manifest, and answers for the symbols as `serve`
does with the encoding at hand. -/
structure Seeds (provider : Net.Request → Net.Response) (m : Manifest) (content : Bytes) :
    Prop where
  manifest : provider (.manifest m.root) = .manifest (some m.toNptp)
  symbols : ∀ start count, provider (.symbols m.root start count) =
    .symbols (symbolsIn (Fec.encode content FEC_REPAIR_SYMBOLS).symbols start.toNat
      (min count MAX_SYMBOLS_PER_BATCH).toNat)

/-- A node offers some content: it provides the manifest, and the content can be read from its
store; the symbols that it has made already are those of the content. -/
structure EventLoop.Offers [Blake3] [Ed25519] {Peer : Type} (e : EventLoop Peer) (m : Manifest)
    (content : Bytes) : Prop where
  representable : m.Representable
  provided : e.provided.lookup m.root = some m.toNptp
  made : ∀ all ∈ e.symbols.lookup m.root,
    all = (Fec.encode content FEC_REPAIR_SYMBOLS).symbols
  stored : (m.reconstruct (Store.getFlat e.disk) e.store).1 = .ok content

/-- A node that offers some content seeds it. -/
theorem EventLoop.serve_seeds [Blake3] [Ed25519] {Peer : Type} [DecidableEq Peer]
    {e : EventLoop Peer} {m : Manifest} {content : Bytes} (h : e.Offers m content) (peer : Peer) :
    Seeds (fun request => (e.serve peer request).1) m content where
  manifest := congrArg Net.Response.manifest h.provided
  symbols start count := by
    have hready : ∃ e', e.ensureSymbols m.root = (true, e') ∧
        e'.symbols.lookup m.root = some (Fec.encode content FEC_REPAIR_SYMBOLS).symbols := by
      unfold EventLoop.ensureSymbols
      split
      · next hmem =>
        obtain ⟨all, hall⟩ := Finmap.mem_iff.mp hmem
        exact ⟨e, rfl, by rw [hall, h.made all hall]⟩
      · have hparse := Manifest.fromNptp_toNptp h.representable []
        have hstored := h.stored
        rw [List.append_nil] at hparse
        simp only [h.provided, hparse]
        split
        · next hr =>
          rw [hr] at hstored
          cases hstored
        · next hr =>
          rw [hr] at hstored
          cases hstored
          exact ⟨_, rfl, Finmap.lookup_insert _⟩
    obtain ⟨e', hensure, hlookup⟩ := hready
    show (e.serve peer (.symbols m.root start count)).1 = _
    simp only [EventLoop.serve, EventLoop.symbolsRange, hensure, hlookup, Option.getD_some]

/-! ## The symbols arrive in order -/

/-- The schedule of the download of some content that is split into `blocks` source blocks. -/
def fecSchedule (content : Bytes) (blocks : Nat) : Schedule :=
  let need := divCeil content.length DEFAULT_SYMBOL_SIZE
  { batch := FEC_BATCH.toNat
    need := need
    spacing := max (need / 4) 1
    total := need + FEC_REPAIR_SYMBOLS * blocks
    enough := RaptorQ.needed (RaptorQ.newDecoder (RaptorQ.otiOf content))
      (RaptorQ.packetsOf content FEC_REPAIR_SYMBOLS) }

/-- What the download needs of a content: its size is in range, and the codec works on it. -/
structure Encodable (content : Bytes) (blocks : Nat) : Prop where
  ne_nil : content ≠ []
  length_le : content.length ≤ MAX_FEC_TRANSFER_SIZE
  codes : RaptorQ.Codes content FEC_REPAIR_SYMBOLS blocks

namespace Encodable

variable {content : Bytes} {blocks : Nat}

theorem symbols_eq (h : Encodable content blocks) :
    (Fec.encode content FEC_REPAIR_SYMBOLS).symbols =
      RaptorQ.packetsOf content FEC_REPAIR_SYMBOLS := by
  rw [Fec.encode, Fec.encodeWithSymbolSize, if_neg h.ne_nil]
  rfl

theorem length_symbols (h : Encodable content blocks) :
    (Fec.encode content FEC_REPAIR_SYMBOLS).symbols.length =
      (fecSchedule content blocks).total := by
  rw [h.symbols_eq, h.codes.count]
  rfl

theorem proper (h : Encodable content blocks) : (fecSchedule content blocks).Proper where
  batch := (by decide : 0 < FEC_BATCH.toNat)
  spacing := by
    show 0 < max _ 1
    omega
  spacing_le := by
    have hpos := List.length_pos_iff.mpr h.ne_nil
    have hneed : ¬(fecSchedule content blocks).need ≤ 0 := by
      rw [show (fecSchedule content blocks).need = divCeil content.length DEFAULT_SYMBOL_SIZE from
        rfl, divCeil_le_iff (by decide)]
      omega
    show max ((fecSchedule content blocks).need / 4) 1 ≤ _
    omega
  need_le := Nat.le_add_right _ _
  enough_le := by
    have hle := RaptorQ.needed_le (RaptorQ.newDecoder (RaptorQ.otiOf content))
      (RaptorQ.packetsOf content FEC_REPAIR_SYMBOLS)
    rwa [h.codes.count] at hle

/-- There are few enough symbols for a `u32` to count. -/
theorem total_lt (h : Encodable content blocks) : (fecSchedule content blocks).total < 2 ^ 25 := by
  have hblocks : blocks < 2 ^ 8 := by
    rw [← h.codes.sourceBlocks]
    exact UInt8.toNat_lt _
  have hneed : divCeil content.length DEFAULT_SYMBOL_SIZE ≤ 28633116 := by
    rw [divCeil_le_iff (by decide)]
    exact h.length_le.trans (by decide)
  show divCeil content.length DEFAULT_SYMBOL_SIZE + FEC_REPAIR_SYMBOLS * blocks < _
  have hrepair : FEC_REPAIR_SYMBOLS * blocks ≤ 64 * 255 := Nat.mul_le_mul (by decide) (by omega)
  omega

/-- A batch of the symbols extends what is held in order. -/
theorem batch (h : Encodable content blocks) {held : Nat}
    (hle : held ≤ (fecSchedule content blocks).total) :
    let all := (Fec.encode content FEC_REPAIR_SYMBOLS).symbols
    let batch := symbolsIn all held FEC_BATCH.toNat
    let after := (fecSchedule content blocks).after held
    all.take held ++ batch = all.take after ∧ batch.length = after - held := by
  intro all batch after
  have hall : all.length = (fecSchedule content blocks).total := h.length_symbols
  have hafter : after = min (held + FEC_BATCH.toNat) all.length := by rw [hall]; rfl
  have hbatch : batch = (all.drop held).take (after - held) := by
    show symbolsIn all held FEC_BATCH.toNat = _
    rw [symbolsIn, ← hafter]
    split
    · next hend =>
      have hzero : after - held = 0 := by omega
      rw [hzero, List.take_zero]
    · rfl
  have hlen : held ≤ after := by omega
  constructor
  · rw [hbatch, ← List.take_add, Nat.add_sub_cancel' hlen]
  · rw [hbatch, List.length_take, List.length_drop]
    omega

/-- The bytes of the symbols held. -/
theorem sum_take (h : Encodable content blocks) {held : Nat}
    (hle : held ≤ (fecSchedule content blocks).total) :
    (((Fec.encode content FEC_REPAIR_SYMBOLS).symbols.take held).map List.length).sum =
      (4 + DEFAULT_SYMBOL_SIZE) * held := by
  have hconst : ∀ ps : List Bytes, (∀ p ∈ ps, p.length = 4 + DEFAULT_SYMBOL_SIZE) →
      (ps.map List.length).sum = (4 + DEFAULT_SYMBOL_SIZE) * ps.length := by
    intro ps
    induction ps with
    | nil => exact fun _ => rfl
    | cons p ps ih =>
      intro hps
      rw [List.map_cons, List.sum_cons, ih fun q hq => hps q (List.mem_cons_of_mem _ hq),
        hps p List.mem_cons_self, List.length_cons, Nat.mul_succ, Nat.add_comm]
  rw [hconst _ fun p hp => h.codes.length p (h.symbols_eq ▸ List.mem_of_mem_take hp),
    List.length_take, h.length_symbols, Nat.min_eq_left hle]

end Encodable

/-! ## One turn against a provider that seeds the content -/

/-- The loop that holds the first `held` symbols of the content, after `j` tries. -/
def FecLoop.holding (m : Manifest) (content : Bytes) (blocks held j : Nat) : FecLoop :=
  { manifest := m
    config := Fec.configFor content.length DEFAULT_SYMBOL_SIZE
    need := (fecSchedule content blocks).need
    symbols := (Fec.encode content FEC_REPAIR_SYMBOLS).symbols.take held
    start := UInt32.ofNat held
    fetchedBytes := (4 + DEFAULT_SYMBOL_SIZE) * held
    lastAttemptLen := (fecSchedule content blocks).lastTry j
    attempts := j }

variable {content : Bytes} {blocks held j : Nat} {m : Manifest}

/-- Counting a batch. -/
theorem FecLoop.take_holding (he : Encodable content blocks)
    (ha : (fecSchedule content blocks).At held j) :
    (FecLoop.holding m content blocks held j).take
        (symbolsIn (Fec.encode content FEC_REPAIR_SYMBOLS).symbols held FEC_BATCH.toNat) =
      FecLoop.holding m content blocks ((fecSchedule content blocks).after held) j := by
  let all := (Fec.encode content FEC_REPAIR_SYMBOLS).symbols
  let batch := symbolsIn all held FEC_BATCH.toNat
  let after := (fecSchedule content blocks).after held
  obtain ⟨happend, hlength⟩ : all.take held ++ batch = all.take after ∧
    batch.length = after - held := he.batch ha.le
  have htotal := he.total_lt
  have hheld := ha.le
  have hafter : after ≤ (fecSchedule content blocks).total := Nat.min_le_right _ _
  have hmono : held ≤ after := le_min (Nat.le_add_right _ _) ha.le
  have hbytes : ((all.take after).map List.length).sum = (4 + DEFAULT_SYMBOL_SIZE) * after :=
    he.sum_take hafter
  have hheld_bytes : ((all.take held).map List.length).sum = (4 + DEFAULT_SYMBOL_SIZE) * held :=
    he.sum_take ha.le
  rw [← happend, List.map_append, List.sum_append, hheld_bytes] at hbytes
  have hcount : (UInt32.ofNat batch.length).toNat = after - held := by
    rw [UInt32.toNat_ofNat_of_lt' (by rw [hlength]; show _ < 2 ^ 32; omega), hlength]
  have hstart : saturatingAdd32 (UInt32.ofNat held) (UInt32.ofNat batch.length) =
      UInt32.ofNat after := by
    rw [saturatingAdd32, hcount, UInt32.toNat_ofNat_of_lt' (by show _ < 2 ^ 32; omega)]
    congr 1
    omega
  have hfetched : satAdd ((4 + DEFAULT_SYMBOL_SIZE) * held) (batch.map List.length).sum =
      (4 + DEFAULT_SYMBOL_SIZE) * after := by
    have hcap : (4 + DEFAULT_SYMBOL_SIZE) * after ≤ 1204 * 2 ^ 25 :=
      Nat.mul_le_mul (by decide) (by omega)
    rw [satAdd, hbytes]
    omega
  show FecLoop.take _ batch = _
  simp only [FecLoop.take, FecLoop.holding, hstart, hfetched]
  rw [happend]

/-- A turn in numbers. -/
theorem FecLoop.turn_holding (root : Hash) (he : Encodable content blocks)
    (hsize : m.totalSize.toNat = content.length) (ha : (fecSchedule content blocks).At held j) :
    let p := fecSchedule content blocks
    let after := p.after held
    let exhausted := decide (held = p.total)
    let more := FecLoop.holding m content blocks after j
    let tried := { more with lastAttemptLen := after, attempts := j + 1 }
    (FecLoop.holding m content blocks held j).turn root
        (symbolsIn (Fec.encode content FEC_REPAIR_SYMBOLS).symbols held FEC_BATCH.toNat) =
      if content.length * 2 < (4 + DEFAULT_SYMBOL_SIZE) * after then .failed .badChunk
      else if p.need ≤ after ∨ exhausted = true then
        if p.spacing ≤ after - p.lastTry j ∨ exhausted = true then
          if p.enough ≤ after then .decoded tried content else tried.next root exhausted
        else more.next root exhausted
      else .again more := by
  intro p after exhausted more tried
  obtain ⟨-, hlength⟩ := he.batch ha.le
  have hcap : min (content.length * 2) (2 ^ 64 - 1) = content.length * 2 := by
    have hmax : MAX_FEC_TRANSFER_SIZE = 2 ^ 35 := by decide
    have hle := he.length_le
    omega
  have hexhausted : (symbolsIn (Fec.encode content FEC_REPAIR_SYMBOLS).symbols held
      FEC_BATCH.toNat).isEmpty = exhausted := by
    have hheld : held ≤ p.total := ha.le
    have hbatch : 0 < p.batch := he.proper.batch
    rw [Bool.eq_iff_iff, decide_eq_true_iff, List.isEmpty_iff, ← List.length_eq_zero_iff, hlength]
    show min (held + p.batch) p.total - held = 0 ↔ held = p.total
    omega
  have hcount : more.symbols.length = after := by
    show (List.take _ _).length = _
    rw [List.length_take, he.length_symbols]
    exact Nat.min_eq_left (Nat.min_le_right _ _)
  have hdecode : Fec.decode more.config content.length more.symbols =
      if p.enough ≤ after then some content else none :=
    Fec.decode_take he.codes he.ne_nil after
  have hmanifest : more.manifest.totalSize.toNat = content.length := hsize
  rw [FecLoop.turn, FecLoop.take_holding he ha, hexhausted]
  dsimp only
  rw [hmanifest, hcap, hcount, hdecode]
  by_cases henough : p.enough ≤ after
  · simp only [if_pos henough]
    rfl
  · simp only [if_neg henough]
    rfl

/-- The tries that fit into twice the content are few. -/
theorem attempts_lt_of_bytes {content : Bytes} {blocks j : Nat}
    (h : (4 + DEFAULT_SYMBOL_SIZE) * (fecSchedule content blocks).tryAt j ≤ content.length * 2) :
    j + 1 < MAX_DECODE_ATTEMPTS := by
  let need := divCeil content.length DEFAULT_SYMBOL_SIZE
  have hneed : content.length ≤ 1200 * need := le_mul_divCeil _ (by decide)
  have hstart : need ≤ FEC_BATCH.toNat * divCeil need FEC_BATCH.toNat :=
    le_mul_divCeil _ (by decide)
  have hstride : max (need / 4) 1 ≤ (fecSchedule content blocks).stride :=
    le_mul_divCeil _ (by decide : 0 < FEC_BATCH.toNat)
  have htry : need + j * max (need / 4) 1 ≤ (fecSchedule content blocks).tryAt j :=
    Nat.add_le_add hstart (Nat.mul_le_mul_left j hstride)
  have hbytes : 1204 * (need + j * max (need / 4) 1) ≤ 2400 * need :=
    (Nat.mul_le_mul_left 1204 htry).trans (h.trans (by omega))
  show j + 1 < 16
  by_contra hlt
  have hj : 15 * max (need / 4) 1 ≤ j * max (need / 4) 1 := Nat.mul_le_mul_right _ (by omega)
  omega

/-- The loop can be in this state at the front of a turn. -/
structure FecLoop.Reached (content : Bytes) (blocks held j : Nat) : Prop where
  schedule : (fecSchedule content blocks).At held j
  attempts : j < MAX_DECODE_ATTEMPTS

/-- One turn against such a provider: the bound on the bytes ends the download, which then would
not have come through; or the content is there; or the loop goes on with more symbols. -/
theorem FecLoop.Reached.turn (root : Hash) (he : Encodable content blocks)
    (hsize : m.totalSize.toNat = content.length) (hr : FecLoop.Reached content blocks held j) :
    let turn := (FecLoop.holding m content blocks held j).turn root
      (symbolsIn (Fec.encode content FEC_REPAIR_SYMBOLS).symbols held FEC_BATCH.toNat)
    let bytes := (4 + DEFAULT_SYMBOL_SIZE) * (fecSchedule content blocks).symbolsAtDecode
    (turn = .failed .badChunk ∧ content.length * 2 < bytes) ∨
      (∃ l, turn = .decoded l content ∧ l.manifest = m ∧ bytes ≤ content.length * 2) ∨
      ∃ held' j', turn = .again (.holding m content blocks held' j') ∧ held < held' ∧
        FecLoop.Reached content blocks held' j' := by
  intro turn bytes
  obtain ⟨ha, hfew⟩ := hr
  let p := fecSchedule content blocks
  let after := p.after held
  let more := FecLoop.holding m content blocks after j
  have hturn : turn = _ := FecLoop.turn_holding root he hsize ha
  have hproper : p.Proper := he.proper
  rw [hturn]
  by_cases hbytes : content.length * 2 < (4 + DEFAULT_SYMBOL_SIZE) * after
  · exact .inl ⟨if_pos hbytes, hbytes.trans_le (Nat.mul_le_mul_left _ ha.after_le_symbolsAtDecode)⟩
  right
  rw [if_neg hbytes]
  have hfit : (4 + DEFAULT_SYMBOL_SIZE) * after ≤ content.length * 2 := Nat.le_of_not_lt hbytes
  have hnext : ∀ l : FecLoop, l.attempts < MAX_DECODE_ATTEMPTS → l.next root false = .again l :=
    fun l hlt => by rw [FecLoop.next, if_neg Bool.false_ne_true, if_neg (Nat.not_le.mpr hlt)]
  by_cases htries : (p.need ≤ after ∨ held = p.total) ∧
      (p.spacing ≤ after - p.lastTry j ∨ held = p.total)
  · obtain ⟨hdone, hfailed⟩ := ha.tried hproper htries.1 htries.2
    rw [if_pos (by simpa using htries.1), if_pos (by simpa using htries.2)]
    by_cases henough : p.enough ≤ after
    · rw [if_pos henough]
      refine .inl ⟨_, rfl, rfl, ?_⟩
      show _ * p.symbolsAtDecode ≤ _
      rw [hdone henough]
      exact hfit
    · obtain ⟨hend, htry, hat⟩ := hfailed henough
      have hfew' : j + 1 < MAX_DECODE_ATTEMPTS := by
        have htryBytes : (4 + DEFAULT_SYMBOL_SIZE) * (fecSchedule content blocks).tryAt j ≤
            content.length * 2 := by
          rw [show (fecSchedule content blocks).tryAt j = after from htry.symm]
          exact hfit
        exact attempts_lt_of_bytes htryBytes
      have hstate : { more with lastAttemptLen := after, attempts := j + 1 } =
          FecLoop.holding m content blocks after (j + 1) := by
        rw [FecLoop.holding,
          show (fecSchedule content blocks).lastTry (j + 1) = after from htry.symm]
        rfl
      refine .inr ⟨after, j + 1, ?_, ha.lt_after hproper hend, hat, hfew'⟩
      rw [if_neg henough, decide_eq_false hend, ← hstate]
      exact hnext _ hfew'
  · obtain ⟨hend, hat⟩ := ha.untried hproper htries
    refine .inr ⟨after, j, ?_, ha.lt_after hproper hend, hat, hfew⟩
    rw [decide_eq_false hend, hnext more hfew]
    split
    · next hneed =>
      refine if_neg fun hspacing => htries ⟨.inl ?_, .inl ?_⟩
      · exact hneed.resolve_right Bool.false_ne_true
      · exact hspacing.resolve_right Bool.false_ne_true
    · rfl

/-! ## The whole download -/

/-- The loop begins with nothing. -/
theorem FecLoop.begin_eq (he : Encodable content blocks)
    (hsize : m.totalSize.toNat = content.length) :
    FecLoop.begin m = .holding m content blocks 0 0 := by
  have hneed : max (divCeil content.length DEFAULT_SYMBOL_SIZE) 1 =
      (fecSchedule content blocks).need := by
    have hspacing : 0 < (fecSchedule content blocks).spacing := he.proper.spacing
    have hle := he.proper.spacing_le
    show max (fecSchedule content blocks).need 1 = _
    omega
  rw [FecLoop.begin, FecLoop.holding, hsize, hneed]
  rfl

theorem FecLoop.reached_zero (he : Encodable content blocks) :
    FecLoop.Reached content blocks 0 0 where
  schedule :=
    { le := Nat.zero_le _
      whole := .inr (Nat.dvd_zero _)
      before := (he.proper.spacing.trans_le he.proper.spacing_le).trans_le
        (he.proper.need_le_tryAt 0)
      failed := Nat.zero_le _ }
  attempts := by decide

end

section

variable [Blake3] [FastCDC] [RaptorQ] {provider : Net.Request → Net.Response}

theorem FecDownload.Returns.of_exchange {root : Hash} {st : FecDownload}
    {r : Except NetError Manifest} (h : (st.exchange root provider).Returns root provider r) :
    st.Returns root provider r := by
  obtain ⟨n, hn⟩ := h
  exact ⟨n + 1, hn⟩

theorem FecDownload.Returns.of_result {root : Hash} {st : FecDownload}
    {r : Except NetError Manifest} (h : st.result = some r) : st.Returns root provider r :=
  ⟨0, h⟩

variable {files : List (Text × Bytes)} {name : Option Text} {blocks : Nat}

omit [RaptorQ] in
/-- The end of a download that got the content: it makes up the root again, and is stored. -/
theorem FecDownload.finish_ok {d : Disk} {s : Store} {phase : FecPhase} {l : FecLoop}
    (hl : l.manifest = Manifest.fromFiles files name) (hsize : (treeBytes files).length < 2 ^ 64)
    (hroom : d.HasRoom (treeBytes files).length) :
    (FecDownload.finish (Manifest.fromFiles files name).root ⟨d, s, phase⟩ l
      (treeBytes files)).result = some (.ok (Manifest.fromFiles files name)) := by
  have hsplit := Manifest.splitStream_fromFiles name hsize
  have hname : (Manifest.fromFiles files name).name = name := rfl
  have hingest := ingestTree_of_room s name hsize hroom
  rw [FecDownload.finish, hl, hsplit]
  dsimp only
  rw [hname, if_neg (by simp)]
  rcases hi : s.ingestTree d files name with ⟨_ | _, d', s'⟩
  · rw [hi] at hingest
    cases hingest
  · rfl

/-- From any turn of the loop on, what the call returns is decided by the symbols it will hold at
the first try that is enough. -/
theorem FecDownload.returns_of_reached {d : Disk} {s : Store}
    (he : Encodable (treeBytes files) blocks)
    (hseeds : Seeds provider (Manifest.fromFiles files name) (treeBytes files))
    (hroom : d.HasRoom (treeBytes files).length) {held j : Nat}
    (hr : FecLoop.Reached (treeBytes files) blocks held j) :
    let m := Manifest.fromFiles files name
    let st : FecDownload := ⟨d, s, .symbols (.holding m (treeBytes files) blocks held j)⟩
    let bytes := (4 + DEFAULT_SYMBOL_SIZE) *
      (fecSchedule (treeBytes files) blocks).symbolsAtDecode
    st.Returns m.root provider
      (if bytes ≤ (treeBytes files).length * 2 then .ok m else .error .badChunk) := by
  intro m st bytes
  have hmax : MAX_FEC_TRANSFER_SIZE = 2 ^ 35 := by decide
  have hlt : (treeBytes files).length < 2 ^ 64 := by
    have hle := he.length_le
    omega
  have hsize : m.totalSize.toNat = (treeBytes files).length := by
    rw [show m = _ from Manifest.fromFiles_eq files name]
    exact toNat_u64 hlt
  let batch := symbolsIn (Fec.encode (treeBytes files) FEC_REPAIR_SYMBOLS).symbols held
    FEC_BATCH.toNat
  have hheld : (UInt32.ofNat held).toNat = held := by
    have hle := hr.schedule.le
    have htotal := he.total_lt
    exact UInt32.toNat_ofNat_of_lt' (by show _ < 2 ^ 32; omega)
  have hanswer : provider (.symbols m.root (UInt32.ofNat held) FEC_BATCH) = .symbols batch := by
    rw [hseeds.symbols, hheld]
    rfl
  have hexchange : ∀ {st'}, st.step m.root (.ok (.symbols batch)) = some st' →
      st.exchange m.root provider = st' := by
    intro st' hstep
    show (st.step m.root
      (.ok (provider (.symbols m.root (UInt32.ofNat held) FEC_BATCH)))).getD st = _
    rw [hanswer, hstep]
    rfl
  refine .of_exchange ?_
  rcases hr.turn m.root he hsize with ⟨hturn, hbytes⟩ | ⟨l, hturn, hl, hbytes⟩ |
    ⟨held', j', hturn, hgrow, hr'⟩
  · rw [hexchange (by simp only [FecDownload.step, st, fetchSymbols, batch, hturn]; rfl),
      if_neg (Nat.not_le.mpr hbytes)]
    exact .of_result rfl
  · rw [hexchange (by simp only [FecDownload.step, st, fetchSymbols, batch, hturn]; rfl),
      if_pos hbytes]
    exact .of_result (FecDownload.finish_ok hl hlt hroom)
  · rw [hexchange (by simp only [FecDownload.step, st, fetchSymbols, batch, hturn]; rfl)]
    have hle := hr'.schedule.le
    exact FecDownload.returns_of_reached he hseeds hroom hr'
termination_by (fecSchedule (treeBytes files) blocks).total - held

/-- What the call returns against a provider that seeds some files. -/
theorem FecDownload.returns_begin {d : Disk} {s : Store} (he : Encodable (treeBytes files) blocks)
    (hm : (Manifest.fromFiles files name).Representable)
    (hseeds : Seeds provider (Manifest.fromFiles files name) (treeBytes files))
    (hroom : d.HasRoom (treeBytes files).length) :
    (FecDownload.begin d s).Returns (Manifest.fromFiles files name).root provider
      (if (4 + DEFAULT_SYMBOL_SIZE) * (fecSchedule (treeBytes files) blocks).symbolsAtDecode ≤
          (treeBytes files).length * 2
        then .ok (Manifest.fromFiles files name) else .error .badChunk) := by
  let m := Manifest.fromFiles files name
  have hmax : MAX_FEC_TRANSFER_SIZE = 2 ^ 35 := by decide
  have hle := he.length_le
  have hlt : (treeBytes files).length < 2 ^ 64 := by omega
  have hsize : m.totalSize.toNat = (treeBytes files).length := by
    rw [show m = _ from Manifest.fromFiles_eq files name]
    exact toNat_u64 hlt
  have hvetted : m.Vetted m.root :=
    ⟨rfl, beq_self_eq_true _, Manifest.validate_fromFiles name hlt⟩
  have hparse := Manifest.fromNptp_toNptp hm []
  rw [List.append_nil] at hparse
  have hget := getManifest_of_vetted hparse hvetted
  have hexchange : (FecDownload.begin d s).exchange m.root provider =
      ⟨d, s, .symbols (.holding m (treeBytes files) blocks 0 0)⟩ := by
    show ((FecDownload.begin d s).step m.root (.ok (provider (.manifest m.root)))).getD _ = _
    rw [hseeds.manifest, FecDownload.step]
    dsimp only [FecDownload.begin]
    rw [hget]
    dsimp only
    rw [hsize, if_neg (by omega), FecLoop.begin_eq he hsize]
    rfl
  refine .of_exchange ?_
  rw [hexchange]
  exact FecDownload.returns_of_reached he hseeds hroom (FecLoop.reached_zero he)

/-- A download from a provider that seeds some files succeeds if and only if the symbols that the
loop holds at its first try with enough of them are at most twice the content. -/
theorem download_fec_ok_iff {d : Disk} {s : Store} (he : Encodable (treeBytes files) blocks)
    (hm : (Manifest.fromFiles files name).Representable)
    (hseeds : Seeds provider (Manifest.fromFiles files name) (treeBytes files))
    (hroom : d.HasRoom (treeBytes files).length) :
    (∃ m, (FecDownload.begin d s).Returns (Manifest.fromFiles files name).root provider (.ok m)) ↔
      (4 + DEFAULT_SYMBOL_SIZE) * (fecSchedule (treeBytes files) blocks).symbolsAtDecode ≤
        (treeBytes files).length * 2 := by
  have hreturns := FecDownload.returns_begin (s := s) he hm hseeds hroom
  constructor
  · rintro ⟨m, hok⟩
    by_contra hbytes
    rw [if_neg hbytes] at hreturns
    cases hok.unique hreturns
  · intro hbytes
    rw [if_pos hbytes] at hreturns
    exact ⟨_, hreturns⟩

end

/-! ## One byte -/

/-- The node that holds the byte `x` offers it. -/
theorem offers_nodeOfX :
    let _ := blake3OfX
    let _ := minFastCDC
    let _ := noSignatures
    let _ := oneSymbolCode
    nodeOfX.Offers (Manifest.fromFiles [(dataPath, [120])] none)
      (treeBytes [(dataPath, [120])]) := by
  let _ := blake3OfX
  let _ := minFastCDC
  let _ := noSignatures
  let _ := oneSymbolCode
  have hroot : (Manifest.fromFiles [(dataPath, [120])] none).root = rootOfX := by decide +kernel
  refine ⟨⟨by decide +kernel, by decide +kernel, by decide +kernel, nofun⟩, ?_, ?_,
    by decide +kernel⟩
  · rw [hroot]
    exact Finmap.lookup_singleton_eq
  · intro all hall
    cases hall

theorem encodable_x : @Encodable oneSymbolCode [120] 1 := by
  let _ := oneSymbolCode
  have hconfig : @Eq (Nat × Nat) (RaptorQ.deserialize (RaptorQ.serialize (RaptorQ.otiOf [120])))
    (RaptorQ.otiOf [120]) := by decide +kernel
  refine ⟨by decide, by decide, hconfig, by decide, by decide, fun kt => ?_, by decide +kernel,
    by decide +kernel, by decide +kernel, ⟨_, rfl, by decide +kernel⟩⟩
  show kt % 1 + (1 - kt % 1) = 1
  omega

theorem hasRoom_fresh (n : Nat) (h : n ≤ MAX_FILE) : (Disk.fresh ∅ ∅ some).HasRoom n := fun id => by
  simpa [Disk.fresh] using h

/-- The 65 symbols of the byte are more than twice as long as it. -/
theorem download_fec_ok_iff_x :
    let _ := blake3OfX
    let _ := minFastCDC
    let _ := noSignatures
    let _ := oneSymbolCode
    let m := Manifest.fromFiles [(dataPath, [120])] none
    (∃ m', (FecDownload.begin (Disk.fresh ∅ ∅ some) Store.fresh).Returns m.root
        (fun request => (nodeOfX.serve () request).1) (.ok m')) ↔ 1204 * 65 ≤ 1 * 2 := by
  let _ := blake3OfX
  let _ := minFastCDC
  let _ := noSignatures
  let _ := oneSymbolCode
  have hdecode : (fecSchedule (treeBytes [(dataPath, [120])]) 1).symbolsAtDecode = 65 := by
    decide +kernel
  have hx : Encodable (treeBytes [(dataPath, [120])]) 1 := encodable_x
  have h := download_fec_ok_iff (s := Store.fresh) hx offers_nodeOfX.representable
    (EventLoop.serve_seeds offers_nodeOfX ()) (hasRoom_fresh 1 (by decide))
  rwa [hdecode] at h

/-- A byte is not downloaded: its seeder answers every request, and the call ends in `BadChunk`. -/
theorem download_fec_x_badChunk :
    let _ := blake3OfX
    let _ := minFastCDC
    let _ := noSignatures
    let _ := oneSymbolCode
    let m := Manifest.fromFiles [(dataPath, [120])] none
    let download := FecDownload.begin (Disk.fresh ∅ ∅ some) Store.fresh
    let provider := fun request => (nodeOfX.serve () request).1
    @RaptorQ.Codes oneSymbolCode [120] FEC_REPAIR_SYMBOLS 1 ∧ Seeds provider m [120] ∧
      download.Returns m.root provider (.error .badChunk) ∧
      ¬∃ m', download.Returns m.root provider (.ok m') := by
  let _ := blake3OfX
  let _ := minFastCDC
  let _ := noSignatures
  let _ := oneSymbolCode
  have hseeds := EventLoop.serve_seeds offers_nodeOfX ()
  have hx : Encodable (treeBytes [(dataPath, [120])]) 1 := encodable_x
  have hreturns :=
    FecDownload.returns_begin (s := Store.fresh) hx offers_nodeOfX.representable hseeds
    (hasRoom_fresh 1 (by decide))
  rw [if_neg (by decide +kernel)] at hreturns
  refine ⟨encodable_x.codes, hseeds, hreturns, ?_⟩
  rintro ⟨m', hok⟩
  cases hok.unique hreturns

end Np2ptp
