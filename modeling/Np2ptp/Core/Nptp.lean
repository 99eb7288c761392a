import Np2ptp.Core.Manifest
import Np2ptp.Lib.Bincode

/-!
# The `.nptp` container

`Manifest::to_nptp` and `from_nptp`: a magic number, a version byte and the manifest as `bincode`
writes it, which is field after field in the order of the structures. A reader of the container
ignores what follows the manifest (`bincode::deserialize` allows trailing bytes).
-/

namespace Np2ptp

open Lib

/-! ## The byte form of a manifest -/

/-- A digest is its 32 bytes. -/
def Hash.codec : Codec Hash :=
  (Codec.raw 32).map
    { toFun bs := ⟨bs.val, bs.property⟩
      invFun h := ⟨h.bytes, h.length_eq⟩
      left_inv _ := rfl
      right_inv _ := rfl }

def ChunkRef.codec : Codec ChunkRef :=
  (Hash.codec.pair (Codec.u64.pair Codec.u32)).map
    { toFun x := ⟨x.1, x.2.1, x.2.2⟩
      invFun c := (c.hash, c.offset, c.length)
      left_inv _ := rfl
      right_inv _ := rfl }

def FileEntry.codec : Codec FileEntry :=
  (Codec.text.pair (Codec.u64.pair (Codec.u64.pair Codec.u64))).map
    { toFun x := ⟨x.1, x.2.1, x.2.2.1, x.2.2.2⟩
      invFun e := (e.path, e.size, e.chunkStart, e.chunkCount)
      left_inv _ := rfl
      right_inv _ := rfl }

def Manifest.codec : Codec Manifest :=
  (Hash.codec.pair (Codec.u64.pair (ChunkRef.codec.list.pair
      (FileEntry.codec.list.pair Codec.text.option)))).map
    { toFun x := ⟨x.1, x.2.1, x.2.2.1, x.2.2.2.1, x.2.2.2.2⟩
      invFun m := (m.root, m.totalSize, m.chunks, m.files, m.name)
      left_inv _ := rfl
      right_inv _ := rfl }

/-- The lengths of the lists and texts of a manifest are `usize`s, as those of every value of the
Rust type are. -/
structure Manifest.Representable (m : Manifest) : Prop where
  chunks : m.chunks.length < 2 ^ 64
  files : m.files.length < 2 ^ 64
  paths : ∀ entry ∈ m.files, entry.path.bytes.length < 2 ^ 64
  name : ∀ name ∈ m.name, name.bytes.length < 2 ^ 64

theorem Manifest.Representable.fits {m : Manifest} (h : m.Representable) :
    Manifest.codec.Fits m := by
  have hhash : ∀ g, Hash.codec.Fits g := fun _ => trivial
  have hchunks : ChunkRef.codec.list.Fits m.chunks :=
    ⟨h.chunks, fun c _ => ⟨hhash _, Codec.u64_fits _, Codec.u32_fits _⟩⟩
  have hfiles : FileEntry.codec.list.Fits m.files :=
    ⟨h.files, fun e he => ⟨Codec.text_fits (h.paths e he), Codec.u64_fits _, Codec.u64_fits _,
      Codec.u64_fits _⟩⟩
  exact ⟨hhash _, Codec.u64_fits _, hchunks, hfiles, fun n hn => Codec.text_fits (h.name n hn)⟩

/-- A manifest with a byte form has lengths that fit their fields. -/
theorem Manifest.Representable.of_fits {m : Manifest} (h : Manifest.codec.Fits m) :
    m.Representable where
  chunks := h.2.2.1.1
  files := h.2.2.2.1.1
  paths entry he := (h.2.2.2.1.2 entry he).1.1
  name text ht := (h.2.2.2.2 text ht).1

/-! ## The container -/

def NPTP_MAGIC : Bytes := ascii "NPTP"

def NPTP_VERSION : UInt8 := 1

/-- `Manifest::to_bytes`. -/
def Manifest.toBytes (m : Manifest) : Bytes := Manifest.codec.encode m

/-- `Manifest::from_serialized`. -/
def Manifest.fromSerialized (bytes : Bytes) : Except ManifestError Manifest :=
  match Manifest.codec.decode bytes with
  | some (m, _) => .ok m
  | none => .error .codec

/-- `Manifest::to_nptp`. -/
def Manifest.toNptp (m : Manifest) : Bytes := NPTP_MAGIC ++ NPTP_VERSION :: m.toBytes

/-- `Manifest::from_nptp`. -/
def Manifest.fromNptp (bytes : Bytes) : Except ManifestError Manifest :=
  if bytes.length < 5 ∨ bytes.take 4 ≠ NPTP_MAGIC then .error .badMagic
  else
    match bytes.drop 4 with
    | [] => .error .badMagic
    | version :: body =>
      if version ≠ NPTP_VERSION then .error (.unsupportedVersion version)
      else Manifest.fromSerialized body

/-- The container round trips: what was written, and anything after it, is read as the manifest. -/
theorem Manifest.fromNptp_toNptp {m : Manifest} (h : m.Representable) (rest : Bytes) :
    Manifest.fromNptp (m.toNptp ++ rest) = .ok m := by
  have hmagic : (m.toNptp ++ rest).take 4 = NPTP_MAGIC := rfl
  have hdrop : (m.toNptp ++ rest).drop 4 = NPTP_VERSION :: (m.toBytes ++ rest) := rfl
  have hlen : 5 ≤ (m.toNptp ++ rest).length := by
    show 5 ≤ (m.toBytes ++ rest).length + 1 + 1 + 1 + 1 + 1
    omega
  rw [Manifest.fromNptp, if_neg (by simp only [hmagic, ne_eq, not_true, or_false]; omega), hdrop]
  simp only [ne_eq, not_true, if_false, Manifest.fromSerialized, Manifest.toBytes]
  rw [Manifest.codec.decode_encode _ _ h.fits]

/-- What is read as a manifest begins with the container of that manifest, and nothing that has no
byte form is ever read. -/
theorem Manifest.toNptp_prefix_of_fromNptp {bytes : Bytes} {m : Manifest}
    (h : Manifest.fromNptp bytes = .ok m) :
    m.Representable ∧ ∃ rest, bytes = m.toNptp ++ rest := by
  unfold Manifest.fromNptp at h
  split at h
  · cases h
  · next hmagic =>
    obtain ⟨-, htake⟩ := not_or.mp hmagic
    split at h
    · cases h
    · next version body hdrop =>
      split at h
      · cases h
      · next hversion =>
        unfold Manifest.fromSerialized at h
        split at h
        · next got rest hdecode =>
          cases h
          obtain ⟨hfits, hbody⟩ := Manifest.codec.encode_decode _ _ _ hdecode
          refine ⟨.of_fits hfits, rest, ?_⟩
          rw [← List.take_append_drop 4 bytes, hdrop, not_not.mp htake, not_not.mp hversion, hbody,
            Manifest.toNptp, Manifest.toBytes, List.append_assoc, List.cons_append]
        · cases h

/-- The container round trips in both directions. Every manifest is read back from its container;
whatever is read as a manifest is that manifest's container, up to bytes behind it, so that no two
byte forms of one manifest are both accepted. -/
theorem Manifest.nptp_round_trips :
    (∀ m : Manifest, m.Representable → Manifest.fromNptp m.toNptp = .ok m) ∧
    ∀ (bytes : Bytes) (m : Manifest), Manifest.fromNptp bytes = .ok m →
      m.Representable ∧ m.toNptp <+: bytes := by
  constructor
  · intro m hm
    have h := Manifest.fromNptp_toNptp hm []
    rwa [List.append_nil] at h
  · intro bytes m h
    obtain ⟨hm, rest, rfl⟩ := Manifest.toNptp_prefix_of_fromNptp h
    exact ⟨hm, List.prefix_append _ _⟩

/-- A named manifest of one file and one chunk, read back with a byte behind it. -/
theorem nptp_round_trips_x :
    let m : Manifest :=
      ⟨rootOfX, 1, [⟨digestOfX, 0, 1⟩], [⟨dataPath, 1, 0, 1⟩], some dataPath⟩
    Manifest.fromNptp m.toNptp = .ok m ∧ m.Representable ∧ m.toNptp <+: m.toNptp ++ [0] := by
  intro m
  have hm : m.Representable :=
    ⟨by decide, by decide, fun entry he => by
      obtain rfl := List.mem_singleton.mp he
      decide, fun name hn => by
      cases hn
      decide⟩
  exact ⟨Manifest.nptp_round_trips.1 m hm,
    Manifest.nptp_round_trips.2 _ m (Manifest.fromNptp_toNptp hm [0])⟩

end Np2ptp
