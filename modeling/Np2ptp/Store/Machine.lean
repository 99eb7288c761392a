import Np2ptp.Lib.Runs
import Np2ptp.Store.Handle

/-!
# The store machine

Any number of handles on one directory, each used by any number of threads, interleaved step by
step. A program counter names the next step of a call, in the order of the source; a step of a
thread has one effect on what is shared (`Effect`), so an invariant is checked once an effect and
once a program counter. Chunks and index lines land in any number of pieces. A process may die at
any point and leave part of what it was writing, and a write may fail half way. Opening is a series
of steps too: the guard, reading the index, truncating it, writing back what was whole, and so on.

`refs.tsv` is not appended to by any call here, so the steps that read or trim it are single ones.
-/

namespace Np2ptp

open Lib

/-! ## Threads -/

/-- Who calls `has`: the caller of the store, or `put`. -/
inductive Job where
  | has (h : Hash)
  | put (bytes : Bytes)

/-- Who calls `refresh_pack_index`: `has`, `put` under the pack lock, or `get`. -/
inductive Return where
  | early (j : Job)
  | late (bytes : Bytes)
  | get (h : Hash)

/-- The next step of a thread. -/
inductive Pc where
  | idle
  -- `has`
  | hasPack (j : Job)
  | hasObject (j : Job)
  | hasRefs (j : Job)
  | hasAgain (j : Job)
  -- `refresh_pack_index`
  | refreshLock (k : Return)
  | refreshStat (k : Return)
  | refreshRead (k : Return)
  | refreshApply (k : Return) (whole : Bytes)
  | refreshAdvance (k : Return) (n : Nat)
  -- `put` under the pack lock
  | packLock (bytes : Bytes)
  | putRefs (bytes : Bytes)
  | recheckPack (bytes : Bytes)
  | recheckObject (bytes : Bytes)
  | recheckRefs (bytes : Bytes)
  | dedup (bytes : Bytes)
  -- `PackState::write`
  | rotate (bytes : Bytes)
  | guardWait (bytes : Bytes)
  | seek (bytes : Bytes)
  | writing (bytes : Bytes) (id : UInt32) (offset : Nat) (rest : Bytes)
  -- the index line
  | appending (bytes : Bytes) (loc : PackLoc) (rest : Bytes)
  | inserting (bytes : Bytes) (loc : PackLoc)
  | bumping (bytes : Bytes) (loc : PackLoc)
  | unlocking (bytes : Bytes) (loc : PackLoc)
  -- `get`
  | getPack (h : Hash)
  | getRead (h : Hash) (loc : PackLoc)
  | getObject (h : Hash)
  | getRef (h : Hash)
  | getAgain (h : Hash)

/-- The thread has nothing to do. -/
def Pc.isIdle : Pc → Bool
  | .idle => true
  | _ => false

/-- Who holds the write guard. -/
inductive Owner where
  | thread (i t : Nat)
  | opener (i : Nat)
  deriving DecidableEq

/-- The handle that an owner of the guard belongs to. -/
def Owner.handle : Owner → Nat
  | .thread i _ => i
  | .opener i => i

/-- A handle with its mutexes: the threads that hold `pack_state` and `pack_index_pos`. -/
structure Handle where
  store : Store
  packLock : Option Nat
  posLock : Option Nat

/-- What one step of a thread does to the shared state. -/
inductive Effect where
  | none
  | lockPos
  | unlockPos
  /-- The cursor moves and its mutex is released. -/
  | movePos (n : Nat)
  /-- The entries of some whole lines enter the map. -/
  | learn (whole : Bytes)
  | lockPack
  | unlockPack
  | readRefs
  | rotate
  | takeGuard
  | growPack (id : UInt32) (piece : Bytes)
  /-- The size of the pack file is noted and the guard released. -/
  | dropGuard (size : Nat)
  | growIndex (piece : Bytes)
  | insert (h : Hash) (loc : PackLoc)
  | bump (n : Nat)

/-- What a thread shares with others: the directory, the guard, and its handle. -/
structure Shared where
  disk : Disk
  guard : Option Owner
  handle : Handle

/-- A change of the store behind a handle. -/
def Shared.setStore (c : Shared) (s : Store) : Shared :=
  { c with handle := { c.handle with store := s } }

/-- The shared state after an effect of the thread `t` of the handle `i`. -/
def Effect.apply (i t : Nat) (c : Shared) : Effect → Shared
  | .none => c
  | .lockPos => { c with handle := { c.handle with posLock := some t } }
  | .unlockPos => { c with handle := { c.handle with posLock := Option.none } }
  | .movePos n =>
    let s := c.handle.store
    { c with handle := { c.handle with
        posLock := Option.none
        store := { s with packIndexPos := s.packIndexPos + n } } }
  | .learn whole =>
    let s := c.handle.store
    c.setStore { s with packIndex := insertAll s.packIndex (packEntries whole) }
  | .lockPack => { c with handle := { c.handle with packLock := some t } }
  | .unlockPack => { c with handle := { c.handle with packLock := Option.none } }
  | .readRefs => c.setStore (c.handle.store.tryRefreshRefs c.disk)
  | .rotate =>
    let (p, d) := c.handle.store.packState.rotate c.disk
    { c.setStore { c.handle.store with packState := p } with disk := d }
  | .takeGuard => { c with guard := some (.thread i t) }
  | .growPack id piece =>
    let content := (c.disk.packs.lookup id).getD []
    { c with disk := { c.disk with packs := c.disk.packs.insert id (content ++ piece) } }
  | .dropGuard size =>
    let s := c.handle.store
    { c.setStore { s with packState := { s.packState with currentSize := size } } with
      guard := Option.none }
  | .growIndex piece => { c with disk := { c.disk with index := c.disk.index ++ piece } }
  | .insert h loc =>
    let s := c.handle.store
    c.setStore { s with packIndex := s.packIndex.insert h loc }
  | .bump n =>
    let s := c.handle.store
    c.setStore { s with packIndexPos := s.packIndexPos + n }

/-- A `put` that returned `Ok`: the bytes, and where they were written unless they were found. -/
abbrev Put := Bytes × Option PackLoc

/-- Where a thread goes on after `refresh_pack_index` returned `Ok`. -/
def Return.ok : Return → Pc
  | .early j => .hasAgain j
  | .late bytes => .putRefs bytes
  | .get h => .getAgain h

/-- Where it goes on after an error, which `has` and `put` drop. -/
def Return.failed : Return → Pc
  | .get _ => .idle
  | k => k.ok

/-- `has` found the chunk. -/
def Job.found : Job → Effect × Pc × List Put
  | .has _ => (.none, .idle, [])
  | .put bytes => (.none, .idle, [(bytes, none)])

section

variable [Blake3]

def Job.hash : Job → Hash
  | .has h => h
  | .put bytes => Hash.of bytes

/-- The next step of a thread: its effect, the program counter after it, and the `put` that
returned in it. `none` where the thread waits, has nothing to do, or has bytes to write. -/
def Pc.next (c : Shared) : Pc → Option (Effect × Pc × List Put)
  | .idle => none
  | .hasPack j =>
    if j.hash ∈ c.handle.store.packIndex then some j.found else some (.none, .hasObject j, [])
  | .hasObject j =>
    if j.hash ∈ c.disk.objects then some j.found else some (.none, .hasRefs j, [])
  | .hasRefs j =>
    if j.hash ∈ c.handle.store.refs then some j.found
    else some (.none, .refreshLock (.early j), [])
  | .hasAgain j =>
    if j.hash ∈ c.handle.store.packIndex then some j.found
    else
      match j with
      | .has _ => some (.none, .idle, [])
      | .put bytes => some (.none, .packLock bytes, [])
  | .refreshLock k =>
    if c.handle.posLock = none then some (.lockPos, .refreshStat k, []) else none
  | .refreshStat k =>
    if c.disk.index.length ≤ c.handle.store.packIndexPos then some (.unlockPos, k.ok, [])
    else some (.none, .refreshRead k, [])
  | .refreshRead k =>
    let tail := c.disk.index.drop c.handle.store.packIndexPos
    if validUtf8 tail then
      if complete LF tail = [] then some (.unlockPos, k.ok, [])
      else some (.none, .refreshApply k (complete LF tail), [])
    else some (.unlockPos, k.failed, [])
  | .refreshApply k whole => some (.learn whole, .refreshAdvance k whole.length, [])
  | .refreshAdvance k n => some (.movePos n, k.ok, [])
  | .packLock bytes =>
    if c.handle.packLock = none then some (.lockPack, .refreshLock (.late bytes), []) else none
  | .putRefs bytes => some (.readRefs, .recheckPack bytes, [])
  | .recheckPack bytes =>
    if Hash.of bytes ∈ c.handle.store.packIndex then some (.none, .dedup bytes, [])
    else some (.none, .recheckObject bytes, [])
  | .recheckObject bytes =>
    if Hash.of bytes ∈ c.disk.objects then some (.none, .dedup bytes, [])
    else some (.none, .recheckRefs bytes, [])
  | .recheckRefs bytes =>
    if Hash.of bytes ∈ c.handle.store.refs then some (.none, .dedup bytes, [])
    else some (.none, .rotate bytes, [])
  | .dedup bytes => some (.unlockPack, .idle, [(bytes, none)])
  | .rotate bytes => some (.rotate, .guardWait bytes, [])
  | .guardWait bytes => if c.guard = none then some (.takeGuard, .seek bytes, []) else none
  | .seek bytes =>
    let id := c.handle.store.packState.currentId
    let offset := ((c.disk.packs.lookup id).getD []).length
    -- the file is open, so it exists, and no file is longer than the file system allows
    if offset ≤ MAX_FILE then some (.growPack id [], .writing bytes id offset bytes, []) else none
  | .writing bytes id offset rest =>
    if rest = [] then
      let loc : PackLoc := ⟨id, UInt64.ofNat offset, UInt32.ofNat bytes.length⟩
      some (.dropGuard (offset + bytes.length),
        .appending bytes loc (packIndexLine (Hash.of bytes) loc), [])
    else none
  | .appending bytes loc rest => if rest = [] then some (.none, .inserting bytes loc, []) else none
  | .inserting bytes loc => some (.insert (Hash.of bytes) loc, .bumping bytes loc, [])
  | .bumping bytes loc =>
    if c.handle.posLock = none then
      some (.bump (packIndexLine (Hash.of bytes) loc).length, .unlocking bytes loc, [])
    else none
  | .unlocking bytes loc => some (.unlockPack, .idle, [(bytes, some loc)])
  | .getPack h =>
    match c.handle.store.packIndex.lookup h with
    | some loc => some (.none, .getRead h loc, [])
    | none => some (.none, .getObject h, [])
  | .getRead _ _ => some (.none, .idle, [])
  | .getObject h =>
    if h ∈ c.disk.objects then some (.none, .idle, []) else some (.none, .getRef h, [])
  | .getRef h =>
    match c.handle.store.getReference c.disk h with
    | .ok none => some (.none, .refreshLock (.get h), [])
    | _ => some (.none, .idle, [])
  | .getAgain h =>
    match c.handle.store.packIndex.lookup h with
    | some loc => some (.none, .getRead h loc, [])
    | none => some (.none, .idle, [])

end

/-- A piece of what a thread is writing lands: its effect and the program counter after it. The
file system does not let a pack file grow past its limit. -/
def Pc.land (c : Shared) (n : Nat) : Pc → Option (Effect × Pc)
  | .writing bytes id offset rest =>
    if ((c.disk.packs.lookup id).getD []).length + (rest.take n).length ≤ MAX_FILE then
      some (.growPack id (rest.take n), .writing bytes id offset (rest.drop n))
    else none
  | .appending bytes loc rest =>
    some (.growIndex (rest.take n), .appending bytes loc (rest.drop n))
  | _ => none

/-! ## Opening -/

/-- The next step of `Store::open`. -/
inductive Opening where
  | guardWait
  | readIndex
  | truncate (kept : Bytes)
  | writeBack (kept : Bytes)
  | trimRefs
  | release
  | loadIndex
  | loadRefs (packIndex : HashMap Hash PackLoc) (pos : Nat)
  | scan (packIndex : HashMap Hash PackLoc) (pos : Nat) (refs : HashMap Hash RefLoc) (refsPos : Nat)

/-- A handle that is not open, is being opened, or is open. -/
inductive Slot where
  | closed
  | opening (o : Opening)
  | live (h : Handle)

/-- One step of `Store::open` on the handle `i`: the directory, the guard and the slot after it.
An error closes the slot and, where it is held, releases the guard. -/
def Opening.next (i : Nat) (d : Disk) (guard : Option Owner) :
    Opening → Option (Disk × Option Owner × Slot)
  | .guardWait => if guard = none then some (d, some (.opener i), .opening .readIndex) else none
  | .readIndex =>
    if validUtf8 d.index then
      if Terminated LF d.index then some (d, guard, .opening .trimRefs)
      else some (d, guard, .opening (.truncate (complete LF d.index)))
    else some (d, none, .closed)
  | .truncate kept => some ({ d with index := [] }, guard, .opening (.writeBack kept))
  | .writeBack kept =>
    -- the write starts at offset 0, whatever was appended since the file was truncated
    some ({ d with index := kept ++ d.index.drop kept.length }, guard, .opening .trimRefs)
  | .trimRefs =>
    match truncatePartialLine d.refsTsv with
    | some refsTsv => some ({ d with refsTsv := refsTsv }, guard, .opening .release)
    | none => some (d, none, .closed)
  | .release => some (d, none, .opening .loadIndex)
  | .loadIndex =>
    match loadLog packEntry d.index with
    | some (packIndex, pos) => some (d, guard, .opening (.loadRefs packIndex pos))
    | none => some (d, guard, .closed)
  | .loadRefs packIndex pos =>
    match loadLog refEntry d.refsTsv with
    | some (refs, refsPos) => some (d, guard, .opening (.scan packIndex pos refs refsPos))
    | none => some (d, guard, .closed)
  | .scan packIndex pos refs refsPos =>
    let (packState, d) := PackState.open d
    some (d, guard, .live ⟨⟨refs, packIndex, pos, refsPos, packState⟩, none, none⟩)

/-! ## The system -/

/-- All handles on one directory and all their threads, and the `put` calls that returned `Ok`. -/
structure Sys where
  disk : Disk
  guard : Option Owner
  slots : Nat → Slot
  pcs : Nat → Nat → Pc
  returned : List Put

/-- A call of a user of the store. -/
inductive Request where
  | has (h : Hash)
  | get (h : Hash)
  | put (bytes : Bytes)

/-- Where a call starts. -/
def Request.start : Request → Pc
  | .has h => .hasPack (.has h)
  | .get h => .getPack h
  | .put bytes => .hasPack (.put bytes)

/-- What can happen next. -/
inductive Action where
  | open (i : Nat)
  | openStep (i : Nat)
  | call (i t : Nat) (r : Request)
  | step (i t : Nat)
  /-- Some bytes of a chunk or of an index line land. -/
  | land (i t n : Nat)
  /-- Some bytes land, and then the write fails. -/
  | fault (i t n : Nat)
  /-- Some bytes land, and then the process dies. -/
  | tear (i t n : Nat)
  | crash (i : Nat)

/-- The state after an effect of a thread, its next program counter and what it returned. -/
def Sys.after (sys : Sys) (i t : Nat) (c : Shared) (pc : Pc) (puts : List Put) : Sys where
  disk := c.disk
  guard := c.guard
  slots := Function.update sys.slots i (.live c.handle)
  pcs := Function.update sys.pcs i (Function.update (sys.pcs i) t pc)
  returned := sys.returned ++ puts

/-- What the threads of an open handle share. -/
abbrev Sys.view (sys : Sys) (h : Handle) : Shared := ⟨sys.disk, sys.guard, h⟩

/-- What the threads of the handle `i` share, if it is open. -/
def Sys.shared (sys : Sys) (i : Nat) : Option Shared :=
  match sys.slots i with
  | .live h => some (sys.view h)
  | _ => none

/-- The guard after the process of the handle `i` died. -/
def Owner.release (i : Nat) (guard : Option Owner) : Option Owner :=
  if guard.map Owner.handle = some i then none else guard

/-- What is shared after the call of a thread ended with an error: the pack lock is released, and
the guard if the thread holds it. -/
def Shared.fail (c : Shared) (i t : Nat) : Shared :=
  { c with
    guard := if c.guard = some (.thread i t) then none else c.guard
    handle := { c.handle with packLock := none } }

/-- The process of the handle `i` is gone. -/
def Sys.kill (sys : Sys) (i : Nat) (d : Disk) : Sys :=
  { sys with
    disk := d
    guard := Owner.release i sys.guard
    slots := Function.update sys.slots i .closed
    pcs := Function.update sys.pcs i fun _ => .idle }

/-- Some bytes of what a thread is writing land, and `k` follows. -/
def Sys.land (sys : Sys) (i t n : Nat) (k : Shared → Pc → Sys) : Option Sys :=
  match sys.shared i with
  | none => none
  | some c =>
    match (sys.pcs i t).land c n with
    | none => none
    | some (e, pc) => some (k (e.apply i t c) pc)

variable [Blake3]

/-- One step of the machine. -/
def Sys.step (sys : Sys) : Action → Option Sys
  | .open i =>
    match sys.slots i with
    | .closed => some { sys with slots := Function.update sys.slots i (.opening .guardWait) }
    | _ => none
  | .openStep i =>
    match sys.slots i with
    | .opening o =>
      match o.next i sys.disk sys.guard with
      | none => none
      | some (disk, guard, slot) =>
        some { sys with disk := disk, guard := guard, slots := Function.update sys.slots i slot }
    | _ => none
  | .call i t r =>
    match sys.shared i, sys.pcs i t with
    | some c, .idle => some (sys.after i t c r.start [])
    | _, _ => none
  | .step i t =>
    match sys.shared i with
    | none => none
    | some c =>
      match (sys.pcs i t).next c with
      | none => none
      | some (e, pc, puts) => some (sys.after i t (e.apply i t c) pc puts)
  | .land i t n => sys.land i t n fun c pc => sys.after i t c pc []
  | .fault i t n => sys.land i t n fun c _ => sys.after i t (c.fail i t) .idle []
  | .tear i t n => sys.land i t n fun c _ => sys.kill i c.disk
  | .crash i => some (sys.kill i sys.disk)

/-! ## Stretches of a run without interference -/

/-- An opening of `n` steps. -/
def Action.opening (i n : Nat) : List Action := .open i :: List.replicate n (.openStep i)

/-- A `put` of a chunk that the store does not have, up to its index line. -/
def Action.writing (i t : Nat) (bytes : Bytes) : List Action :=
  .call i t (.put bytes) :: List.replicate 16 (.step i t) ++ [.land i t bytes.length, .step i t]

/-- The index line of that `put`, and the rest of it. -/
def Action.finishing (i t : Nat) : List Action := .land i t 100 :: List.replicate 4 (.step i t)

end Np2ptp
