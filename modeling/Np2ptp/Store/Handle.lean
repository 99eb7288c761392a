import Np2ptp.Store.Layout

/-!
# A store handle

The functions of `Store` run one after the other: opening, `has`, `get`, `put` and
`add_reference`, each a function of the directory and the handle. A lock that one caller holds for
the length of a call has no part here; the interleavings of several callers are the subject of the
store machine.
-/

namespace Np2ptp

open Lib

/-! ## Opening -/

/-- `PackState::open`: resume the highest-numbered pack file, creating `0.pack` at the first
time. -/
def PackState.open (d : Disk) : PackState × Disk :=
  let maxId := d.packs.foldl (fun m id _ => max m id.toNat) (fun m a _ b _ => by omega) 0
  let currentId := UInt32.ofNat maxId
  let content := (d.packs.lookup currentId).getD []
  (⟨currentId, content.length⟩, { d with packs := d.packs.insert currentId content })

/-- `Store::open`. -/
def Store.open (d : Disk) : Except StoreError Store × Disk :=
  match truncatePartialLine d.index with
  | none => (.error .io, d)
  | some index =>
    let d := { d with index := index }
    match truncatePartialLine d.refsTsv with
    | none => (.error .io, d)
    | some refsTsv =>
      let d := { d with refsTsv := refsTsv }
      match loadLog packEntry d.index, loadLog refEntry d.refsTsv with
      | some (packIndex, packIndexPos), some (refs, refsPos) =>
        let (packState, d) := PackState.open d
        (.ok ⟨refs, packIndex, packIndexPos, refsPos, packState⟩, d)
      | _, _ => (.error .io, d)

/-! ## Tailing the sidecars -/

/-- `refresh_pack_index`. -/
def Store.refreshPackIndex (d : Disk) (s : Store) : Option Store :=
  (refreshTail packEntry d.index s.packIndex s.packIndexPos).map fun r =>
    { s with packIndex := r.1, packIndexPos := r.2 }

/-- `refresh_refs`. -/
def Store.refreshRefs (d : Disk) (s : Store) : Option Store :=
  (refreshTail refEntry d.refsTsv s.refs s.refsPos).map fun r =>
    { s with refs := r.1, refsPos := r.2 }

/-- `let _ = self.refresh_pack_index()`: an error is dropped. -/
def Store.tryRefreshPackIndex (d : Disk) (s : Store) : Store := (s.refreshPackIndex d).getD s

/-- `let _ = self.refresh_refs()`. -/
def Store.tryRefreshRefs (d : Disk) (s : Store) : Store := (s.refreshRefs d).getD s

/-- The test that `has` and `put` make of the three layouts, in memory and under `objects/`. -/
def Store.holds (d : Disk) (s : Store) (h : Hash) : Bool :=
  decide (h ∈ s.packIndex) || decide (h ∈ d.objects) || decide (h ∈ s.refs)

/-- `Store::has`. -/
def Store.has (d : Disk) (s : Store) (h : Hash) : Bool × Store :=
  if s.holds d h then (true, s)
  else
    let s := s.tryRefreshPackIndex d
    (decide (h ∈ s.packIndex), s)

/-! ## Reading chunks -/

section Read

variable [Blake3]

/-- `read_from_pack`: `none` is an I/O error. -/
def Disk.readFromPack (d : Disk) (loc : PackLoc) : Option Bytes :=
  (d.packs.lookup loc.packId).bind fun content => readAt content loc.offset loc.length

/-- The bytes read for a hash: an I/O error, or they do not hash to it, or they are the chunk. -/
def checkRead (h : Hash) : Option Bytes → Except StoreError (Option Bytes)
  | none => .error .io
  | some bytes => if Hash.of bytes ≠ h then .error (.corrupt h) else .ok (some bytes)

/-- `get_from_pack_index`. -/
def Store.getFromPackIndex (d : Disk) (s : Store) (h : Hash) : Except StoreError (Option Bytes) :=
  match s.packIndex.lookup h with
  | none => .ok none
  | some loc => checkRead h (d.readFromPack loc)

/-- `get_reference`. -/
def Store.getReference (d : Disk) (s : Store) (h : Hash) : Except StoreError (Option Bytes) :=
  match s.refs.lookup h with
  | none => .ok none
  | some loc =>
    match d.sources.lookup loc.path with
    | none => .ok none
    | some .unreadable => .error .io
    | some (.file content) => checkRead h (readAt content loc.offset loc.length)

/-- The part of `Store::get` that reads the file under `objects/`. -/
def Disk.getObject (d : Disk) (h : Hash) : Except StoreError (Option Bytes) :=
  match d.objects.lookup h with
  | none => .ok none
  | some bytes => checkRead h (some bytes)

/-- `Store::get`. -/
def Store.get (d : Disk) (s : Store) (h : Hash) : Except StoreError (Option Bytes) × Store :=
  match s.getFromPackIndex d h with
  | .error e => (.error e, s)
  | .ok (some bytes) => (.ok (some bytes), s)
  | .ok none =>
    match d.getObject h with
    | .error e => (.error e, s)
    | .ok (some bytes) => (.ok (some bytes), s)
    | .ok none =>
      match s.getReference d h with
      | .error e => (.error e, s)
      | .ok (some bytes) => (.ok (some bytes), s)
      | .ok none =>
        match s.refreshPackIndex d with
        | none => (.error .io, s)
        | some s => (s.getFromPackIndex d h, s)

end Read

/-! ## Writing chunks -/

/-- The rotation at the front of `PackState::write`: the next pack file, created if it does not
exist. The id wraps around like the `u32` it is. -/
def PackState.rotate (d : Disk) (p : PackState) : PackState × Disk :=
  if PACK_ROTATE_SIZE ≤ p.currentSize then
    let currentId := p.currentId + 1
    (⟨currentId, 0⟩,
      { d with packs := d.packs.insert currentId ((d.packs.lookup currentId).getD []) })
  else (p, d)

/-- `PackState::write`: where the bytes landed. `none` is an I/O error: the file has reached its
largest size, and what fits of the bytes is in it. -/
def PackState.write (d : Disk) (p : PackState) (bytes : Bytes) :
    Option (UInt32 × UInt64) × PackState × Disk :=
  let (p, d) := p.rotate d
  let content := (d.packs.lookup p.currentId).getD []
  let offset := content.length
  if MAX_FILE < offset + bytes.length then
    let written := content ++ bytes.take (MAX_FILE - offset)
    (none, p, { d with packs := d.packs.insert p.currentId written })
  else
    (some (p.currentId, UInt64.ofNat offset), ⟨p.currentId, offset + bytes.length⟩,
      { d with packs := d.packs.insert p.currentId (content ++ bytes) })

/-- `add_reference`. The line holds the lossy text of the path, the map the path itself. -/
def Store.addReference (d : Disk) (s : Store) (h : Hash) (source : Bytes) (offset : UInt64)
    (length : UInt32) : Disk × Store :=
  ({ d with refsTsv := d.refsTsv ++ refLine h source offset length },
    { s with refs := s.refs.insert h ⟨source, offset, length⟩ })

variable [Blake3]

/-- `Store::put`. -/
def Store.put (d : Disk) (s : Store) (bytes : Bytes) :
    Except StoreError (Hash × Bool) × Disk × Store :=
  let h := Hash.of bytes
  match s.has d h with
  | (true, s) => (.ok (h, false), d, s)
  | (false, s) =>
    let s := (s.tryRefreshPackIndex d).tryRefreshRefs d
    if s.holds d h then (.ok (h, false), d, s)
    else
      match s.packState.write d bytes with
      | (none, packState, d) => (.error .io, d, { s with packState := packState })
      | (some (packId, offset), packState, d) =>
        let loc := ⟨packId, offset, UInt32.ofNat bytes.length⟩
        let line := packIndexLine h loc
        (.ok (h, true), { d with index := d.index ++ line },
          { s with
            packState := packState
            packIndex := s.packIndex.insert h loc
            packIndexPos := s.packIndexPos + line.length })

end Np2ptp
