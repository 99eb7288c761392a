import Np2ptp.Lib.Bincode
import Np2ptp.Lib.FileName
import Np2ptp.Lib.Staged
import Np2ptp.Net.LedgerFile

/-!
# The files of a node

`Ledger::open` and `save`, `ReceiptBag::open` and `save`: the state of a node in the files
`ledger.bin` and `receipts.bin` of its store, in the byte form of `bincode`. Each process stages a
new version under a name with its own number and renames it into place, so that however many
processes share the store, wherever they stop and whenever the power fails, the next opening finds
no torn file but a state that was saved (`state_files_survive`). What the ledger file holds for the
event loop is then what is on the disk (`persistent_file_is_on_disk`).
-/

namespace Np2ptp

open Lib

/-! ## Names -/

/-- The files that a node keeps its state in. -/
inductive StateFile where
  | ledger
  | receipts
  deriving DecidableEq

def StateFile.path : StateFile → Bytes
  | .ledger => ascii "ledger.bin"
  | .receipts => ascii "receipts.bin"

/-- The name under which the process `pid` stages the file. -/
def StateFile.tmp (f : StateFile) (pid : Nat) : Bytes :=
  withExtension f.path (ascii "tmp-" ++ decimal pid)

/-- The one name under which a process stages a file. -/
def StateFile.Names (i : StateFile × Nat) (p : Bytes) : Prop := p = i.1.tmp i.2

theorem StateFile.take_tmp (f : StateFile) (pid : Nat) :
    (f.tmp pid).take 10 = (withExtension f.path (ascii "tmp-")).take 10 := by
  have hsplit : f.tmp pid = withExtension f.path (ascii "tmp-") ++ decimal pid := by
    rw [StateFile.tmp, withExtension, withExtension, List.append_assoc, List.cons_append]
  rw [hsplit, List.take_append_of_le_length]
  cases f <;> decide

/-- No two processes stage under one name, nor one process two files. -/
theorem StateFile.names_inj (i j : StateFile × Nat) (p : Bytes) (hi : StateFile.Names i p)
    (hj : StateFile.Names j p) : i = j := by
  obtain ⟨f, pid⟩ := i
  obtain ⟨g, pid'⟩ := j
  have h : f.tmp pid = g.tmp pid' := hi.symm.trans hj
  have hfirst := congrArg (List.take 10) h
  rw [f.take_tmp, g.take_tmp] at hfirst
  have hfile : f = g := by
    cases f <;> cases g <;> first | rfl | exact absurd hfirst (by decide)
  subst hfile
  have htail := List.append_cancel_left h
  rw [decimal_inj (List.append_cancel_left (List.cons.inj htail).2)]

theorem StateFile.path_inj {f g : StateFile} (h : f.path = g.path) : f = g := by
  cases f <;> cases g <;> first | rfl | exact absurd h (by decide)

/-- The files themselves are not written in place. -/
theorem StateFile.not_staging_path (f : StateFile) :
    ¬ Folder.Staging StateFile.Names f.path := by
  rintro ⟨⟨g, pid⟩, h⟩
  have hfirst := congrArg (List.take 10) h
  rw [g.take_tmp] at hfirst
  cases f <;> cases g <;> exact absurd hfirst (by decide)

/-! ## Contents -/

def Counters.codec : Codec Counters :=
  (Codec.u64.pair (Codec.u64.pair Codec.u64)).map
    { toFun x := ⟨x.1, x.2.1, x.2.2⟩
      invFun c := (c.servedToUs, c.weServed, c.creditedByReceipts)
      left_inv _ := rfl
      right_inv _ := rfl }

theorem length_peer_bytes (bs : { bs : Bytes // bs.length = 32 }) : bs.val.length = 32 :=
  bs.property

def RepPeerId.codec : Codec RepPeerId :=
  (Codec.raw 32).map
    { toFun bs := ⟨bs.val, length_peer_bytes bs⟩
      invFun p := ⟨p.bytes, p.length_eq⟩
      left_inv _ := rfl
      right_inv _ := rfl }

def Receipt.codec : Codec Receipt :=
  (RepPeerId.codec.pair (RepPeerId.codec.pair (Codec.u64.pair (Codec.u64.pair
      Codec.u8.list)))).map
    { toFun x := ⟨x.1, x.2.1, x.2.2.1, x.2.2.2.1, x.2.2.2.2⟩
      invFun r := (r.server, r.client, r.bytes, r.epoch, r.sig)
      left_inv _ := rfl
      right_inv _ := rfl }

section

variable {K : Type} (key : Codec K)

/-- The byte form of a map: its number of entries, and these in the order in which the map gives
them. The form of the keys is that of their type. -/
def Ledger.codec : Codec (List (K × Counters)) := (key.pair Counters.codec).list

variable [DecidableEq K]

/-- `bincode::deserialize` of a ledger: entry after entry is inserted. Bytes behind the last one
are ignored. -/
def Ledger.deserialize (bytes : Bytes) : Option (Ledger K) :=
  ((Ledger.codec key).decode bytes).map fun r => ⟨insertAll ∅ r.1⟩

/-- `bincode::deserialize` of a bag of receipts. -/
def ReceiptBag.deserialize (bytes : Bytes) : Option (List Receipt) :=
  (Receipt.codec.list.decode bytes).map Prod.fst

/-- The entries of a ledger, in any order. -/
structure Ledger.Listing (l : Ledger K) (entries : List (K × Counters)) : Prop where
  nodup : (entries.map Prod.fst).Nodup
  mem_iff : ∀ k c, (k, c) ∈ entries ↔ l.peers.lookup k = some c

/-- Entries with keys of their own make up one map, in whatever order they are inserted. -/
theorem lookup_insertAll_iff {ν : Type} {es : List (K × ν)} (h : (es.map Prod.fst).Nodup) {k : K}
    {v : ν} : (insertAll ∅ es).lookup k = some v ↔ (k, v) ∈ es := by
  refine ⟨fun hl => (lookup_insertAll hl).resolve_left (by simp), fun hm => ?_⟩
  induction es using List.reverseRecOn with
  | nil => cases hm
  | append_singleton es e ih =>
    rw [List.map_append, List.nodup_append] at h
    obtain ⟨hes, -, hapart⟩ := h
    rw [insertAll_concat]
    rcases List.mem_append.mp hm with hm | hm
    · have hne : k ≠ e.1 := hapart k (List.mem_map_of_mem hm) e.1 (by simp)
      rw [Finmap.lookup_insert_of_ne _ hne]
      exact ih hes hm
    · rw [← List.mem_singleton.mp hm]
      exact Finmap.lookup_insert _

/-- Entries with keys of their own list the ledger that they make up. -/
theorem Ledger.listing_insertAll {entries : List (K × Counters)}
    (h : (entries.map Prod.fst).Nodup) : Ledger.Listing ⟨insertAll ∅ entries⟩ entries :=
  ⟨h, fun _ _ => (lookup_insertAll_iff h).symm⟩

/-- A ledger is read back, in whatever order its entries were written. -/
theorem Ledger.Listing.deserialize {l : Ledger K} {entries : List (K × Counters)}
    (h : l.Listing entries) (hfits : (Ledger.codec key).Fits entries) (rest : Bytes) :
    Ledger.deserialize key ((Ledger.codec key).encode entries ++ rest) = some l := by
  rw [Ledger.deserialize, (Ledger.codec key).decode_encode _ _ hfits, Option.map_some]
  congr 1
  obtain ⟨peers⟩ := l
  congr 1
  refine Finmap.ext_lookup fun k => Option.ext fun c => ?_
  rw [lookup_insertAll_iff h.nodup]
  exact h.mem_iff k c

/-- The bytes are the byte form of what the file is for. -/
def StateFile.Serialized : StateFile → Bytes → Prop
  | .ledger, bytes => ∃ (l : Ledger K) (entries : List (K × Counters)), l.Listing entries ∧
      (Ledger.codec key).Fits entries ∧ bytes = (Ledger.codec key).encode entries
  | .receipts, bytes => ∃ receipts : List Receipt, Receipt.codec.list.Fits receipts ∧
      bytes = Receipt.codec.list.encode receipts

/-- The bytes can be read for what the file is for. -/
def StateFile.readable : StateFile → Bytes → Bool
  | .ledger, bytes => (Ledger.deserialize key bytes).isSome
  | .receipts, bytes => (ReceiptBag.deserialize bytes).isSome

theorem StateFile.readable_of_serialized {f : StateFile} {bytes : Bytes}
    (h : f.Serialized key bytes) : f.readable key bytes = true := by
  cases f with
  | ledger =>
    obtain ⟨l, entries, hl, hfits, rfl⟩ := h
    have hread := hl.deserialize key hfits []
    rw [List.append_nil] at hread
    rw [StateFile.readable, hread]
    rfl
  | receipts =>
    obtain ⟨receipts, hfits, rfl⟩ := h
    have hread := Receipt.codec.list.decode_encode receipts [] hfits
    rw [List.append_nil] at hread
    rw [StateFile.readable, ReceiptBag.deserialize, hread]
    rfl

/-! ## Opening -/

variable {ι : Type}

/-- `Ledger::open`: a missing or corrupt file makes an empty ledger. -/
def Ledger.openFile (w : Folder ι Bytes) : Ledger K :=
  match w.value StateFile.ledger.path with
  | none => ⟨∅⟩
  | some bytes => (Ledger.deserialize key bytes).getD ⟨∅⟩

omit key [DecidableEq K] in
/-- `ReceiptBag::open`. -/
def ReceiptBag.openFile (w : Folder ι Bytes) : List Receipt :=
  match w.value StateFile.receipts.path with
  | none => []
  | some bytes => (ReceiptBag.deserialize bytes).getD []

/-- The file is corrupt, and an opening quarantines it. -/
def StateFile.corrupt (f : StateFile) (w : Folder ι Bytes) : Bool :=
  match w.value f.path with
  | none => false
  | some bytes => !f.readable key bytes

/-! ## Saving -/

/-- What the processes of a store do to these files: each saves the one or the other in the byte
form, under its own staging name, and quarantines a file that it finds corrupt under a name that is
new. -/
def StateFile.Saves (w : Folder (StateFile × Nat) Bytes) :
    Folder.Act (StateFile × Nat) Bytes → Prop
  | .create i tmp target content => StateFile.Names i tmp ∧ target = i.1.path ∧
      i.1.Serialized key content
  | .remove p => ¬ Folder.Staging StateFile.Names p ∧ ∀ f : StateFile, p ≠ f.path
  | .move p q => (∃ f : StateFile, p = f.path ∧ f.corrupt key w = true) ∧
      ¬ Folder.Staging StateFile.Names q ∧ ∀ f : StateFile, q ≠ f.path
  | _ => True

/-- What may be in the files: what can be read. -/
def StateFile.May (p bytes : Bytes) : Prop :=
  ∀ f : StateFile, p = f.path → f.readable key bytes = true

/-- The invariant: the processes stage under their own names, and the files can be read, now and if
the power fails. -/
def StateFile.Sane (w : Folder (StateFile × Nat) Bytes) : Prop :=
  w.Sound StateFile.Names (StateFile.May key)

variable {key} {w w' : Folder (StateFile × Nat) Bytes} {a : Folder.Act (StateFile × Nat) Bytes}

theorem StateFile.Sane.not_corrupt (h : StateFile.Sane key w) (f : StateFile) :
    f.corrupt key w = false := by
  rw [StateFile.corrupt, Folder.value]
  cases hx : w.files f.path with
  | none => rfl
  | some x =>
    rw [Option.map_some]
    dsimp only
    rw [h.holds _ List.mem_cons_self _ x f.not_staging_path hx f rfl]
    rfl

/-- A quiet directory with state files that can be read. -/
theorem StateFile.sane_quiet (hpast : w.past = []) (hidle : ∀ i, w.writers i = none)
    (hsynced : ∀ p x, w.files p = some x → x.synced = true)
    (hreadable : ∀ f : StateFile, f.corrupt key w = false) : StateFile.Sane key w := by
  refine Folder.sound_quiet hpast hidle hsynced ?_
  rintro p x - hx f rfl
  have hf := hreadable f
  rw [StateFile.corrupt, Folder.value, hx] at hf
  exact (Bool.not_eq_false' _).mp hf

/-- Saves put into the files what can be read. -/
theorem StateFile.Saves.acts (h : StateFile.Saves key w a) :
    Folder.Acts StateFile.Names (StateFile.May key) a := by
  cases a with
  | create i tmp target content =>
    obtain ⟨hname, rfl, hserialized⟩ := h
    refine ⟨hname, i.1.not_staging_path, fun f hf => ?_⟩
    rw [← StateFile.path_inj hf]
    exact StateFile.readable_of_serialized key hserialized
  | remove p => exact h.1
  | move p q =>
    obtain ⟨⟨f, rfl, -⟩, hq, hpath⟩ := h
    exact ⟨f.not_staging_path, hq, fun _ _ g hg => absurd hg (hpath g)⟩
  | _ => trivial

/-- A run of saves keeps the files sane. -/
theorem StateFile.Sane.kept {as : List (Folder.Act (StateFile × Nat) Bytes)}
    (h : StateFile.Sane key w) (hok : Along Folder.step (StateFile.Saves key) w as)
    (hrun : runs Folder.step w as = some w') :
    StateFile.Sane key w' ∧
      Along Folder.step (Folder.Apart (Folder.Staging StateFile.Names)) w as :=
  Folder.Sound.kept StateFile.names_inj h (hok.mono fun _ _ => StateFile.Saves.acts) hrun

/-- Nothing is taken from where a state file is. -/
theorem StateFile.Sane.puts (h : StateFile.Sane key w) (hok : StateFile.Saves key w a)
    {f : StateFile} {v : Option Bytes} (hv : w.puts f.path a = some v) : v ≠ none := by
  cases a with
  | rename i =>
    obtain ⟨wr, -, hput⟩ := Option.bind_eq_some_iff.mp hv
    split at hput
    · cases hput
      exact Option.some_ne_none _
    · cases hput
  | remove p =>
    rw [Folder.puts, if_neg (hok.2 f)] at hv
    cases hv
  | move p q =>
    obtain ⟨⟨g, rfl, hcorrupt⟩, -⟩ := hok
    rw [h.not_corrupt g] at hcorrupt
    cases hcorrupt
  | _ => cases hv

/-- What is read of a state file was there at first, or somebody saved it. -/
theorem StateFile.Sane.reads {as : List (Folder.Act (StateFile × Nat) Bytes)}
    (h : StateFile.Sane key w) (hpast : w.past = []) (hidle : ∀ i, w.writers i = none)
    (hok : Along Folder.step (StateFile.Saves key) w as)
    (hrun : runs Folder.step w as = some w') (f : StateFile) :
    w'.value f.path = w.value f.path ∨ ∃ i content, f.Serialized key content ∧
      .create i (i.1.tmp i.2) f.path content ∈ as ∧ w'.value f.path = some content := by
  have hnone : none ∉ gathered Folder.step (Folder.puts f.path) w as := by
    have hsaves := Along.invariant (I := StateFile.Sane key)
      (fun _ _ _ hI ha hs => Folder.step_sound StateFile.names_inj hI ha.acts hs) h hok
    have hsome : ∀ v ∈ gathered Folder.step (Folder.puts f.path) w as, v ≠ none :=
      forall_gathered_iff.mpr (hsaves.mono fun u b hI v hv => by exact hI.1.puts hI.2 hv)
    exact fun hmem => hsome none hmem rfl
  have hmove (q : Bytes) : .move q f.path ∉ as := by
    intro hmem
    obtain ⟨before, after, rfl⟩ := List.append_of_mem hmem
    obtain ⟨x, hx, -⟩ := runs_append.mp hrun
    obtain ⟨-, -, hq⟩ := (hok.of_append hx).1
    exact hq f rfl
  rcases Folder.reads_created h.neat hidle (h.kept hok hrun).2 hrun f.not_staging_path
    (by rw [hpast]; exact fun _ hdir => absurd hdir List.not_mem_nil) hmove with
    hfirst | ⟨-, hgone⟩ | ⟨i, tmp, content, hmem, hvalue⟩
  · exact .inl hfirst
  · exact absurd hgone hnone
  · right
    obtain ⟨before, after, rfl⟩ := List.append_of_mem hmem
    obtain ⟨x, hx, -⟩ := runs_append.mp hrun
    obtain ⟨rfl, htarget, hserialized⟩ := (hok.of_append hx).1
    rw [← StateFile.path_inj htarget] at hserialized
    exact ⟨i, content, hserialized, hmem, hvalue⟩

/-- The state of a node survives. However many processes save the ledger and the receipts of one
store, each step of each save taken in any order, wherever they stop, and whenever the power fails:
no opening finds a corrupt file. What is opened is a ledger that one of them saved, or the one from
the beginning, and receipts likewise; and as long as the power is on, it is what was renamed into
place last. -/
theorem state_files_survive {as : List (Folder.Act (StateFile × Nat) Bytes)}
    (hpast : w.past = []) (hidle : ∀ i, w.writers i = none)
    (hsynced : ∀ p x, w.files p = some x → x.synced = true)
    (hreadable : ∀ f : StateFile, f.corrupt key w = false)
    (hok : Along Folder.step (StateFile.Saves key) w as)
    (hrun : runs Folder.step w as = some w') :
    (∀ f : StateFile, f.corrupt key w' = false) ∧
    (Ledger.openFile key w' = Ledger.openFile key w ∨
      ∃ i entries, .create i (i.1.tmp i.2) StateFile.ledger.path
          ((Ledger.codec key).encode entries) ∈ as ∧
        (Ledger.openFile key w').Listing entries) ∧
    (ReceiptBag.openFile w' = ReceiptBag.openFile w ∨
      ∃ i, .create i (i.1.tmp i.2) StateFile.receipts.path
        (Receipt.codec.list.encode (ReceiptBag.openFile w')) ∈ as) ∧
    ((∀ a ∈ as, a.Powered) → ∀ f : StateFile, w'.value f.path =
      (gathered Folder.step (Folder.puts f.path) w as).getLast?.getD (w.value f.path)) := by
  have hsane := StateFile.sane_quiet hpast hidle hsynced hreadable
  obtain ⟨hsane', hapart⟩ := hsane.kept hok hrun
  refine ⟨hsane'.not_corrupt, ?_, ?_, fun hpower f => ?_⟩
  · rcases hsane.reads hpast hidle hok hrun .ledger with
      hfirst | ⟨i, content, hs, hmem, hvalue⟩
    · left
      rw [Ledger.openFile, Ledger.openFile, hfirst]
    · right
      obtain ⟨l, entries, hl, hfits, rfl⟩ := hs
      refine ⟨i, entries, hmem, ?_⟩
      have hread := hl.deserialize key hfits []
      rw [List.append_nil] at hread
      rw [Ledger.openFile, hvalue]
      dsimp only
      rw [hread]
      exact hl
  · rcases hsane.reads hpast hidle hok hrun .receipts with
      hfirst | ⟨i, content, hs, hmem, hvalue⟩
    · left
      rw [ReceiptBag.openFile, ReceiptBag.openFile, hfirst]
    · right
      obtain ⟨receipts, hfits, rfl⟩ := hs
      have hread := Receipt.codec.list.decode_encode receipts [] hfits
      rw [List.append_nil] at hread
      refine ⟨i, ?_⟩
      rw [ReceiptBag.openFile, hvalue]
      dsimp only
      rw [ReceiptBag.deserialize, hread]
      exact hmem
  · exact Folder.reads_last hsane.neat hapart hpower hrun f.not_staging_path

/-- Whatever counters a single peer has fit their form. -/
theorem Ledger.fits_one (k : UInt64) (c : Counters) : (Ledger.codec Codec.u64).Fits [(k, c)] := by
  refine ⟨?_, fun _ _ => ⟨Codec.u64_fits _, Codec.u64_fits _, Codec.u64_fits _, Codec.u64_fits _⟩⟩
  rw [List.length_singleton]
  decide

/-- Two processes save their ledgers at the same time; the first one is done when the power
fails, the second one in the middle of its file. -/
def twoSaves : List (Folder.Act (StateFile × Nat) Bytes) :=
  let save (pid : Nat) (k : UInt64) : Folder.Act (StateFile × Nat) Bytes :=
    .create (.ledger, pid) (StateFile.ledger.tmp pid) StateFile.ledger.path
      ((Ledger.codec Codec.u64).encode [(k, ⟨5, 0, 0⟩)])
  [save 10 1, save 11 2, .write (.ledger, 10) 40, .write (.ledger, 11) 20, .sync (.ledger, 10),
    .rename (.ledger, 10), .powerCut (fun _ => 0) (fun _ => [])]

/-- What is found then is not torn. -/
theorem two_saves_survive :
    ∃ w', runs Folder.step ⟨fun _ => none, [], fun _ => none⟩ twoSaves = some w' ∧
      StateFile.corrupt Codec.u64 .ledger w' = false := by
  obtain ⟨w', hrun⟩ :
      ∃ w', runs Folder.step ⟨fun _ => none, [], fun _ => none⟩ twoSaves = some w' := ⟨_, rfl⟩
  refine ⟨w', hrun, ?_⟩
  have hserialized (k : UInt64) : StateFile.ledger.Serialized Codec.u64
      ((Ledger.codec Codec.u64).encode [(k, ⟨5, 0, 0⟩)]) :=
    ⟨_, _, Ledger.listing_insertAll (by simp), Ledger.fits_one _ _, rfl⟩
  refine (state_files_survive rfl (fun _ => rfl) (fun _ _ h => (by cases h)) (fun _ => rfl) ?_
    hrun).1 .ledger
  refine (along_of_mem (P := fun a => ∀ w, StateFile.Saves Codec.u64 w a) _ fun a ha v => ?_).mono
    fun w _ h => h w
  simp only [twoSaves, List.mem_cons, List.not_mem_nil, or_false] at ha
  rcases ha with rfl | rfl | rfl | rfl | rfl | rfl | rfl
  · exact ⟨rfl, rfl, hserialized 1⟩
  · exact ⟨rfl, rfl, hserialized 2⟩
  all_goals trivial

/-! ## The ledger of a running node -/

/-- `save`: the content is staged under the process's own name and renamed into place. -/
def StateFile.save (f : StateFile) (pid : Nat) (content : Bytes) :
    Option Folder.Fault → List (Folder.Act (StateFile × Nat) Bytes) :=
  Folder.replace (f, pid) (f.tmp pid) f.path content

/-- Saving what has the byte form is one of the things that are done to the files. -/
theorem StateFile.save_along {f : StateFile} {content : Bytes} (hs : f.Serialized key content)
    (w : Folder (StateFile × Nat) Bytes) (pid : Nat) (fault : Option Folder.Fault) :
    Along Folder.step (StateFile.Saves key) w (f.save pid content fault) := by
  refine (along_of_mem (P := fun a => ∀ w, StateFile.Saves key w a) w fun a ha v => ?_).mono
    fun w _ h => h w
  rcases Folder.mem_replace ha with rfl | ⟨n, rfl⟩ | rfl | rfl | rfl
  · exact ⟨rfl, rfl, hs⟩
  all_goals trivial

/-- What a save does when nothing else happens at the time: the file holds the content, or with a
fault anywhere on the way what it held before. -/
theorem StateFile.Sane.save {f : StateFile} {pid : Nat} {content : Bytes}
    (h : StateFile.Sane key w) (hs : f.Serialized key content) (hidle : w.writers (f, pid) = none)
    (fault : Option Folder.Fault) :
    ∃ w', runs Folder.step w (f.save pid content fault) = some w' ∧ StateFile.Sane key w' ∧
      w'.writers = w.writers ∧
      w'.value f.path = if fault = none then some content else w.value f.path := by
  obtain ⟨w', hrun, hwriters, hputs⟩ :=
    Folder.runs_replace hidle (f.tmp pid) f.path f.path content fault
  obtain ⟨hsane, hapart⟩ := h.kept (StateFile.save_along hs w pid fault) hrun
  refine ⟨w', hrun, hsane, hwriters, ?_⟩
  have hpower : ∀ a ∈ f.save pid content fault, a.Powered := by
    intro a ha
    rcases Folder.mem_replace ha with rfl | ⟨n, rfl⟩ | rfl | rfl | rfl <;> trivial
  rw [Folder.reads_last h.neat hapart hpower hrun f.not_staging_path, StateFile.save, hputs]
  simp only [and_true]
  split <;> rfl

variable [Ed25519] [Blake3] [RaptorQ] {Peer : Type} [DecidableEq Peer]

/-- A node and the directory of its store. -/
structure OnDisk (Peer : Type) [Ed25519] where
  process : Persistent Peer
  folder : Folder (StateFile × Nat) Bytes

/-- Something that happens to the node; where a save of the ledger fails, if one is made and it
does; and the order in which the map of the ledger gives its entries. -/
structure OnDisk.Event (Peer : Type) [Ed25519] where
  event : NodeEvent Peer
  fault : Option Folder.Fault
  entries : List (Peer × Counters)

/-- The event makes the node save its ledger. -/
def Persistent.saves (p : Persistent Peer) : NodeEvent Peer → Bool
  | .saveTick _ => p.node.ledgerDirty
  | ev => (p.node.pulledReceipts ev).isSome

/-- One event, and what the process does in the directory because of it. -/
def OnDisk.step (peerKey : Codec Peer) (pid : Nat) (d : OnDisk Peer) (x : OnDisk.Event Peer) :
    Option (OnDisk Peer) := do
  let process ← d.process.step (x.event, x.fault.isNone)
  let folder ← runs Folder.step d.folder
    (if d.process.saves x.event then
      StateFile.ledger.save pid ((Ledger.codec peerKey).encode x.entries) x.fault
    else [])
  some ⟨process, folder⟩

/-- The entries saved are those of the ledger, and they fit their form; the outcome of the tick's
save is the one that the event loop sees. -/
def OnDisk.Truthful (peerKey : Codec Peer) (d : OnDisk Peer) (x : OnDisk.Event Peer) : Prop :=
  (∀ saved, x.event = .saveTick saved → saved = x.fault.isNone) ∧
    (d.process.saves x.event = true →
      ∀ process, d.process.step (x.event, x.fault.isNone) = some process →
        process.node.ledger.Listing x.entries ∧ (Ledger.codec peerKey).Fits x.entries)

omit key in
/-- What the event loop takes for the saved ledger changes when a save succeeds, and only then. -/
theorem Persistent.step_file {p p' : Persistent Peer} {ev : NodeEvent Peer} {ok : Bool}
    (htick : ∀ saved, ev = .saveTick saved → saved = ok) (h : p.step (ev, ok) = some p') :
    p'.file = if p.saves ev = true ∧ ok = true then p'.node.ledger else p.file := by
  obtain ⟨node, hnode, rfl⟩ := Option.map_eq_some_iff.mp h
  cases ev with
  | saveTick saved =>
    obtain rfl := htick saved rfl
    rw [EventLoop.step] at hnode
    split at hnode <;> cases hnode <;> rfl
  | _ => rfl

/-- One event keeps the directory in step with the event loop. -/
theorem OnDisk.step_agrees {peerKey : Codec Peer} {pid : Nat} {d d' : OnDisk Peer}
    {x : OnDisk.Event Peer}
    (h : StateFile.Sane peerKey d.folder ∧ d.folder.writers (.ledger, pid) = none ∧
      Ledger.openFile peerKey d.folder = d.process.file)
    (hok : d.Truthful peerKey x) (hstep : d.step peerKey pid x = some d') :
    StateFile.Sane peerKey d'.folder ∧ d'.folder.writers (.ledger, pid) = none ∧
      Ledger.openFile peerKey d'.folder = d'.process.file := by
  obtain ⟨hsane, hidle, hfile⟩ := h
  obtain ⟨process, hprocess, hrest⟩ := Option.bind_eq_some_iff.mp hstep
  obtain ⟨folder, hfolder, hd⟩ := Option.bind_eq_some_iff.mp hrest
  cases hd
  have hstepped := Persistent.step_file hok.1 hprocess
  by_cases hsaves : d.process.saves x.event = true
  · obtain ⟨hl, hfits⟩ := hok.2 hsaves process hprocess
    have hserialized : StateFile.ledger.Serialized peerKey
        ((Ledger.codec peerKey).encode x.entries) := ⟨_, x.entries, hl, hfits, rfl⟩
    obtain ⟨folder', hrun, hsane', hwriters, hvalue⟩ := hsane.save hserialized hidle x.fault
    rw [if_pos hsaves, hrun, Option.some.injEq] at hfolder
    subst hfolder
    refine ⟨hsane', hwriters ▸ hidle, ?_⟩
    rw [hstepped, Ledger.openFile, hvalue]
    cases hfault : x.fault with
    | none =>
      have hread := hl.deserialize peerKey hfits []
      rw [List.append_nil] at hread
      rw [if_pos rfl, if_pos ⟨hsaves, rfl⟩]
      dsimp only
      rw [hread]
      rfl
    | some fault =>
      rw [if_neg (by simp), if_neg (by simp)]
      exact hfile
  · rw [if_neg hsaves] at hfolder
    cases hfolder
    refine ⟨hsane, hidle, ?_⟩
    rw [hstepped, if_neg fun hboth => hsaves hboth.1]
    exact hfile

/-- What a restart reads: in every run of a node with its directory, in which saves fail or succeed
at any point, the ledger that `open` would find is the one that the event loop takes for saved. As
long as no credit is lost to a failed save, a clear flag therefore means that the node would come
back with the ledger that it has. -/
theorem persistent_file_is_on_disk {peerKey : Codec Peer} {pid : Nat} {d d' : OnDisk Peer}
    {events : List (OnDisk.Event Peer)} (hpast : d.folder.past = [])
    (hidle : ∀ i, d.folder.writers i = none)
    (hsynced : ∀ p x, d.folder.files p = some x → x.synced = true)
    (hreadable : ∀ f : StateFile, f.corrupt peerKey d.folder = false)
    (hfile : Ledger.openFile peerKey d.folder = d.process.file)
    (hok : Along (OnDisk.step peerKey pid) (OnDisk.Truthful peerKey) d events)
    (hrun : runs (OnDisk.step peerKey pid) d events = some d') :
    Ledger.openFile peerKey d'.folder = d'.process.file ∧
      (d.process.node.ledger = d.process.file →
        Along (OnDisk.step peerKey pid)
          (fun d x => d.process.Recorded (x.event, x.fault.isNone)) d events →
        d'.process.node.ledgerDirty = false →
        Ledger.openFile peerKey d'.folder = d'.process.node.ledger) := by
  have hagrees := (runs_invariant (fun _ _ _ hI ha hs => OnDisk.step_agrees hI ha hs)
    ⟨StateFile.sane_quiet hpast hidle hsynced hreadable, hidle _, hfile⟩ hok hrun).2.2
  refine ⟨hagrees, fun hopened hrecorded hclear => ?_⟩
  rw [hagrees]
  refine (runs_invariant (I := fun d => d.process.Remembered) ?_ (fun _ => hopened) hrecorded hrun
    hclear).symm
  intro t x t' hI ha hs
  obtain ⟨process, hprocess, hrest⟩ := Option.bind_eq_some_iff.mp hs
  obtain ⟨folder, -, ht⟩ := Option.bind_eq_some_iff.mp hrest
  cases ht
  exact t.process.step_remembered _ _ hI ha hprocess

end

/-- A node with an empty directory. -/
def emptyHanded : @OnDisk UInt64 ownSignatures :=
  let _ := ownSignatures
  ⟨⟨.new (Disk.fresh ∅ ∅ some) Store.fresh ⟨∅⟩ [] (.ofByte 0) 0, ⟨∅⟩⟩,
    ⟨fun _ => none, [], fun _ => none⟩⟩

/-- A peer is identified, and answers the pull with a receipt over five bytes. The ledger is saved
then. -/
def creditOfFive : List (@OnDisk.Event UInt64 ownSignatures) :=
  let _ := ownSignatures
  [⟨.identified 1 (.ofByte 1), none, []⟩,
    ⟨.response 1 0 (.receipts [Receipt.issue (.ofByte 2) (.ofByte 1) 5 0]), none, [(1, ⟨0, 0, 5⟩)]⟩]

/-- The node would come back with the ledger that it has. -/
theorem credit_of_five_is_on_disk :
    let _ := blake3OfX
    let _ := ownSignatures
    let _ := oneSymbolCode
    ∃ d, runs (OnDisk.step Codec.u64 10) emptyHanded creditOfFive = some d ∧
      Ledger.openFile Codec.u64 d.folder = d.process.node.ledger := by
  intro _ _ _
  obtain ⟨d, hrun⟩ : ∃ d, runs (OnDisk.step Codec.u64 10) emptyHanded creditOfFive = some d :=
    ⟨_, rfl⟩
  refine ⟨d, hrun, (persistent_file_is_on_disk rfl (fun _ => rfl) (fun _ _ h => (by cases h))
    (fun _ => rfl) rfl ?_ hrun).2 rfl ?_ ?_⟩
  · refine ⟨⟨fun _ h => (by cases h), fun h => absurd h (by decide)⟩, fun d hd => ?_⟩
    cases hd
    refine ⟨⟨fun _ h => (by cases h), fun _ process hp => ?_⟩, fun _ _ => trivial⟩
    cases hp
    have hl : Ledger.Listing ⟨insertAll ∅ [(1, ⟨0, 0, 5⟩)]⟩
        [((1 : UInt64), (⟨0, 0, 5⟩ : Counters))] :=
      Ledger.listing_insertAll (List.nodup_singleton _)
    exact ⟨hl, Ledger.fits_one _ _⟩
  · exact ⟨fun _ _ _ => .inl rfl, fun _ _ => ⟨fun _ _ _ => .inl rfl, fun _ _ => trivial⟩⟩
  · cases hrun
    rfl

end Np2ptp
