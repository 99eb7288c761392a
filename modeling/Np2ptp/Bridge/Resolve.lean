import Np2ptp.Bridge.Torrent
import Np2ptp.Core.Reconstruct
import Np2ptp.Lib.Runs
import Np2ptp.Net.Binding
import Np2ptp.Store.ExportLaws

/-!
# Resolving a torrent from the network

`resolve` as a machine: the mapping of the infohash is looked up, providers of the root it names
are found, and one provider after the other is downloaded from until the content passes the piece
check. A provider that fails or has other content is passed over; an export that fails is not. What
the check has seen is the concatenation of the files, so of a manifest that is returned the bytes
are the torrent's (`Resolve.step_keeps`), and where its files end is what the provider said
(`resolve_describes_iff`).
-/

namespace Np2ptp

open Lib

/-- `Network::get_mapping`, given what the lookup of the record returns: a value that is not a
root's 32 bytes is no mapping. -/
def getMapping : Except NetError (Option Bytes) → Except NetError (Option Hash)
  | .error e => .error e
  | .ok none => .ok none
  | .ok (some v) => if h : v.length = 32 then .ok (some ⟨v, h⟩) else .ok none

/-! ## What a torrent says of its files -/

/-- The files have the paths and lengths that the torrent declares, in order, and the bytes that
its piece hashes are of. -/
def TorrentMeta.Describes [Sha1] (info : TorrentMeta) (files : List (Text × Bytes)) : Prop :=
  files.map (fun f => (f.1, f.2.length)) = info.files.map (fun f => (f.path, f.length.toNat)) ∧
    Pinned info.pieceLength.toNat info.pieceHashes (treeBytes files)

/-- A torrent describes one list of files, unless SHA-1 digests of pieces collide. -/
theorem TorrentMeta.Describes.unique [Sha1] {info : TorrentMeta}
    {files files' : List (Text × Bytes)} (h : info.Describes files) (h' : info.Describes files') :
    files = files' ∨ Collision Sha1.digest (blocks info.pieceLength.toNat (treeBytes files))
      (blocks info.pieceLength.toNat (treeBytes files')) := by
  refine (h.2.eq_or_collision h'.2).imp_left fun hstream => ?_
  have htable := h.1.trans h'.1.symm
  have hpaths : files.map Prod.fst = files'.map Prod.fst := by
    have := congrArg (List.map Prod.fst) htable
    rwa [List.map_map, List.map_map] at this
  have hlengths : (files.map Prod.snd).map List.length = (files'.map Prod.snd).map List.length := by
    have := congrArg (List.map Prod.snd) htable
    rw [List.map_map, List.map_map] at this ⊢
    exact this
  have hcontents := List.eq_iff_flatten_eq.mpr ⟨hstream, hlengths⟩
  rw [← List.zip_unzip files, ← List.zip_unzip files', List.unzip_fst, List.unzip_snd,
    List.unzip_fst, List.unzip_snd, hpaths, hcontents]

/-- The file table of the manifest has the paths and lengths that the torrent declares, in order. -/
def Manifest.Declares (m : Manifest) (info : TorrentMeta) : Prop :=
  m.files.map (fun e => (e.path, e.size)) = info.files.map fun f => (f.path, f.length)

instance (m : Manifest) (info : TorrentMeta) : Decidable (m.Declares info) :=
  inferInstanceAs (Decidable (_ = _))

/-- An export has the files of the table, made of pieces of the listed hashes. -/
theorem Store.exportTree_content [Blake3] {d : Disk} {s : Store} {m : Manifest}
    {out : List (Text × Bytes)} (h : (s.exportTree d m).1 = .ok out) :
    out.map (fun f => (f.1, f.2.length)) = m.files.map (fun e => (e.path, e.size.toNat)) ∧
      ∃ chunks : List Bytes, chunks.map Hash.of = m.hashes ∧ treeBytes out = chunks.flatten := by
  have hfiles : (m.reconstructFiles (Store.fetch d) (s, none)).1 = .ok out := by
    rw [Store.exportTree] at h
    rcases hr : m.reconstructFiles (Store.fetch d) (s, none) with ⟨e | files, t, _ | e'⟩
    · rw [hr] at h
      cases h
    · rw [hr] at h
      cases h
    · rw [hr] at h
      cases h
      rfl
    · rw [hr] at h
      cases h
  obtain ⟨-, -, htable, hpieces⟩ := Manifest.reconstructFiles_ok hfiles
  exact ⟨htable, hpieces⟩

/-- What is exported is as the torrent says where the manifest is and the bytes are. -/
theorem TorrentMeta.describes_iff [Blake3] [Sha1] {info : TorrentMeta} {d : Disk} {s : Store}
    {m : Manifest} {out : List (Text × Bytes)} (h : (s.exportTree d m).1 = .ok out)
    (hpinned : Pinned info.pieceLength.toNat info.pieceHashes (treeBytes out)) :
    info.Describes out ↔ m.Declares info := by
  have hsizes : ∀ (es : List FileEntry) (fs : List TorrentFile),
      es.map (fun e => (e.path, e.size.toNat)) = fs.map (fun f => (f.path, f.length.toNat)) ↔
        es.map (fun e => (e.path, e.size)) = fs.map fun f => (f.path, f.length) := by
    intro es
    induction es with
    | nil => intro fs; cases fs <;> simp
    | cons e es ih =>
      intro fs
      cases fs with
      | nil => simp
      | cons f fs =>
        simp only [List.map_cons, List.cons.injEq, Prod.mk.injEq, UInt64.toNat_inj, ih]
  rw [TorrentMeta.Describes, (Store.exportTree_content h).1, hsizes, Manifest.Declares]
  exact and_iff_left hpinned

/-! ## The machine -/

/-- How far `resolve` is, with the local store. -/
inductive Resolve (Peer : Type) where
  | mapping (d : Disk) (s : Store)
  | finding (d : Disk) (s : Store) (root : Hash)
  /-- The download from one provider; the others come after it. -/
  | downloading (root : Hash) (provider : Peer) (rest : List Peer) (dl : Download Peer)
  /-- The manifest is exported and checked. -/
  | checking (d : Disk) (s : Store) (root : Hash) (rest : List Peer) (m : Manifest)
  | returned (d : Disk) (s : Store) (result : Except BridgeError (Option Manifest))

namespace Resolve

variable {Peer : Type}

/-- What `resolve` waits for: the record of the mapping, the providers found, an answer to the
download, or its own check. -/
inductive Event (Peer : Type) where
  | record (value : Except NetError (Option Bytes))
  | found (providers : Except NetError (List Peer))
  | answered (a : Answered)
  | check

/-- What the call has returned. -/
def result : Resolve Peer → Option (Except BridgeError (Option Manifest))
  | .returned _ _ result => some result
  | _ => none

theorem eq_of_result {st : Resolve Peer} {r : Except BridgeError (Option Manifest)}
    (hr : st.result = some r) : ∃ d s, st = .returned d s r := by
  cases st with
  | returned d s r' =>
    cases hr
    exact ⟨d, s, rfl⟩
  | _ => cases hr

/-- The head of the loop over the providers. -/
def next (root : Hash) (d : Disk) (s : Store) : List Peer → Resolve Peer
  | [] => .returned d s (.ok none)
  | p :: rest => .downloading root p rest (Download.start [p] d s)

/-- A download has been answered: it goes on, or has ended. -/
def downloaded (verify : Option TorrentMeta) (root : Hash) (provider : Peer) (rest : List Peer)
    (dl : Download Peer) : Resolve Peer :=
  match dl.result with
  | none => .downloading root provider rest dl
  | some (.error _) => .next root dl.disk dl.store rest
  | some (.ok m) =>
    match verify with
    | none => .returned dl.disk dl.store (.ok (some m))
    | some _ => .checking dl.disk dl.store root rest m

section

variable [Blake3] [Sha1] [DecidableEq Peer]

/-- One step of `resolve`. -/
def step (verify : Option TorrentMeta) : Resolve Peer → Event Peer → Option (Resolve Peer)
  | .mapping d s, .record value =>
    match getMapping value with
    | .error e => some (.returned d s (.error (.net e)))
    | .ok none => some (.returned d s (.ok none))
    | .ok (some root) => some (.finding d s root)
  | .finding d s _, .found (.error e) => some (.returned d s (.error (.net e)))
  | .finding d s root, .found (.ok providers) => some (.next root d s providers)
  | .downloading root p rest dl, .answered a =>
    (dl.step root [p] a).map (downloaded verify root p rest)
  | .checking d s root rest m, .check =>
    match verify with
    | none => none
    | some info =>
      match s.exportTree d m with
      | (.error e, s) => some (.returned d s (.error (.store e)))
      | (.ok files, s) =>
        if verifyPieces files info.pieceLength.toNat info.pieceHashes then
          some (.returned d s (.ok (some m)))
        else some (.next root d s rest)
  | _, _ => none

/-- Everything a step can do. -/
inductive Steps (verify : Option TorrentMeta) :
    Resolve Peer → Event Peer → Resolve Peer → Prop where
  /-- The lookup of the mapping fails. -/
  | unlooked {d s value e} : getMapping value = .error e →
      Steps verify (.mapping d s) (.record value) (.returned d s (.error (.net e)))
  /-- There is no mapping. -/
  | unmapped {d s value} : getMapping value = .ok none →
      Steps verify (.mapping d s) (.record value) (.returned d s (.ok none))
  | mapped {d s value root} : getMapping value = .ok (some root) →
      Steps verify (.mapping d s) (.record value) (.finding d s root)
  | unfound {d s root e} :
      Steps verify (.finding d s root) (.found (.error e)) (.returned d s (.error (.net e)))
  | found {d s root providers} :
      Steps verify (.finding d s root) (.found (.ok providers)) (.next root d s providers)
  /-- The download goes on. -/
  | answered {root p rest dl dl' a} : dl.step root [p] a = some dl' → dl'.result = none →
      Steps verify (.downloading root p rest dl) (.answered a) (.downloading root p rest dl')
  /-- The download fails, and the provider is passed over. -/
  | failed {root p rest dl dl' a e} : dl.step root [p] a = some dl' →
      dl'.result = some (.error e) → Steps verify (.downloading root p rest dl) (.answered a)
        (.next root dl'.disk dl'.store rest)
  /-- The download succeeds, and there is nothing to check it against. -/
  | unverified {root p rest dl dl' a m} : dl.step root [p] a = some dl' →
      dl'.result = some (.ok m) → verify = none → Steps verify (.downloading root p rest dl)
        (.answered a) (.returned dl'.disk dl'.store (.ok (some m)))
  /-- The download succeeds. -/
  | downloaded {root p rest dl dl' a m info} : dl.step root [p] a = some dl' →
      dl'.result = some (.ok m) → verify = some info → Steps verify (.downloading root p rest dl)
        (.answered a) (.checking dl'.disk dl'.store root rest m)
  /-- The content cannot be exported, and the call fails. -/
  | unexported {d s root rest m info e s'} : verify = some info →
      s.exportTree d m = (.error e, s') →
      Steps verify (.checking d s root rest m) .check (.returned d s' (.error (.store e)))
  /-- The content is the torrent's. -/
  | verified {d s root rest m info files s'} : verify = some info →
      s.exportTree d m = (.ok files, s') →
      verifyPieces files info.pieceLength.toNat info.pieceHashes = true →
      Steps verify (.checking d s root rest m) .check (.returned d s' (.ok (some m)))
  /-- The content is not the torrent's, and the provider is passed over. -/
  | refuted {d s root rest m info files s'} : verify = some info →
      s.exportTree d m = (.ok files, s') →
      verifyPieces files info.pieceLength.toNat info.pieceHashes = false →
      Steps verify (.checking d s root rest m) .check (.next root d s' rest)

theorem steps_of_step {verify : Option TorrentMeta} {st st' : Resolve Peer} {e : Event Peer}
    (h : st.step verify e = some st') : Steps verify st e st' := by
  unfold step at h
  split at h
  · next d s value =>
    split at h
    · next hv => cases h; exact .unlooked hv
    · next hv => cases h; exact .unmapped hv
    · next hv => cases h; exact .mapped hv
  · cases h
    exact .unfound
  · cases h
    exact .found
  · next root p rest dl a =>
    obtain ⟨dl', hdl, rfl⟩ := Option.map_eq_some_iff.mp h
    unfold Resolve.downloaded
    split
    · next hr => exact .answered hdl hr
    · next hr => exact .failed hdl hr
    · next m hr =>
      cases verify with
      | none => exact .unverified hdl hr rfl
      | some info => exact .downloaded hdl hr rfl
  · next d s root rest m =>
    split at h
    · cases h
    · next info =>
      split at h
      · next he => cases h; exact .unexported rfl he
      · next he =>
        split at h
        · next hv => cases h; exact .verified rfl he hv
        · next hv => cases h; exact .refuted rfl he (Bool.eq_false_iff.mpr hv)
  · cases h

/-! ## What a step keeps -/

/-- The manifest `m` is listed with chunks that make up a stream with the piece hashes. -/
def Checked (info : TorrentMeta) (m : Manifest) (chunks : List Bytes) : Prop :=
  chunks.map Hash.of = m.hashes ∧
    Pinned info.pieceLength.toNat info.pieceHashes chunks.flatten

/-- The manifest at hand is `P`, and one that is returned has been checked as well. -/
def Keeps (info : TorrentMeta) (P : Manifest → Prop) : Resolve Peer → Prop
  | .downloading _ _ _ dl => dl.phase.Holds P
  | .checking _ _ _ _ m => P m
  | .returned _ _ (.ok (some m)) => P m ∧ ∃ chunks, Checked info m chunks
  | _ => True

/-- The event brings a manifest that passes the checks of `get_manifest`. -/
def Event.Brings (e : Event Peer) (m : Manifest) : Prop :=
  ∃ root a, e = .answered (.manifest a) ∧ getManifest root a = .ok m

omit [Sha1] [DecidableEq Peer] in
theorem Event.Brings.of_answered {a : Answered} {b : Answer} {root : Hash} {m : Manifest}
    (ha : a = .manifest b) (hm : getManifest root b = .ok m) :
    (Event.answered a : Event Peer).Brings m :=
  ⟨root, b, by rw [ha], hm⟩

omit [DecidableEq Peer] in
theorem keeps_next {info : TorrentMeta} {P : Manifest → Prop} (root : Hash) (d : Disk) (s : Store)
    (rest : List Peer) : (next root d s rest).Keeps info P := by
  cases rest with
  | nil => trivial
  | cons p rest => trivial

/-- One step keeps what manifests are; what is returned has been exported and checked. -/
theorem step_keeps {info : TorrentMeta} {P : Manifest → Prop} (st : Resolve Peer)
    (e : Event Peer) (st' : Resolve Peer) (h : st.Keeps info P) (hP : ∀ m, e.Brings m → P m)
    (hstep : st.step (some info) e = some st') : st'.Keeps info P := by
  have hholds : ∀ {root p rest dl dl' a}, st = .downloading root p rest dl → e = .answered a →
      dl.step root [p] a = some dl' → dl'.phase.Holds P := by
    rintro root p rest dl dl' a rfl rfl hdl
    exact Download.step_holds (fun b m hb hm => hP m (.of_answered hb hm)) h hdl
  cases steps_of_step hstep with
  | unlooked hv => trivial
  | unmapped hv => trivial
  | mapped hv => trivial
  | unfound => trivial
  | found => exact keeps_next _ _ _ _
  | answered hs hr => exact hholds rfl rfl hs
  | failed hs hr => exact keeps_next _ _ _ _
  | unverified hs hr hv => cases hv
  | downloaded hs hr hv => exact Download.holds_of_result (hholds rfl rfl hs) hr
  | unexported hv he => trivial
  | verified hv he hok =>
    cases hv
    obtain ⟨-, chunks, hchunks, hbytes⟩ := Store.exportTree_content (congrArg Prod.fst he)
    have hpinned := verifyPieces_iff.mp hok
    rw [hbytes] at hpinned
    exact ⟨h, chunks, hchunks, hpinned⟩
  | refuted hv he hno => exact keeps_next _ _ _ _

/-! ## What is returned -/

/-- A resolved manifest has the torrent's bytes, and its files if and only if it says so: the
manifest is one that a provider answered with, what it lists has been checked against the piece
hashes, and whatever is exported from it later is as the torrent says exactly where the paths and
lengths of its file table are the torrent's, unless other chunks with the listed BLAKE3 digests turn
up. So in a run in which every manifest answered with declares the torrent's files, they are what is
exported. -/
theorem resolve_describes_iff {info : TorrentMeta} {d : Disk} {s : Store}
    {events : List (Event Peer)} {st : Resolve Peer} {m : Manifest}
    (hrun : runs (step (some info)) (.mapping d s) events = some st)
    (hok : st.result = some (.ok (some m))) :
    (∃ e ∈ events, e.Brings m) ∧
      (Along (step (some info)) (fun _ e => ∀ m, e.Brings m → m.Declares info) (.mapping d s)
        events → m.Declares info) ∧
      ∃ chunks, Checked info m chunks ∧ ∀ d' s' out, (Store.exportTree d' s' m).1 = .ok out →
        (info.Describes out ↔ m.Declares info) ∨
          ∃ pieces, pieces.map Hash.of = m.hashes ∧ treeBytes out = pieces.flatten ∧
            Collision Hash.of pieces chunks := by
  have hkeeps : ∀ {P : Manifest → Prop},
      Along (step (some info)) (fun _ e => ∀ m, e.Brings m → P m) (.mapping d s) events →
      P m ∧ ∃ chunks, Checked info m chunks := by
    intro P hP
    have hstart : (Resolve.mapping d s : Resolve Peer).Keeps info P := trivial
    have h : st.Keeps info P := runs_invariant step_keeps hstart hP hrun
    obtain ⟨d', s', rfl⟩ := eq_of_result hok
    exact h
  have hbrought := hkeeps (P := fun m => ∃ e ∈ events, e.Brings m)
    (along_of_mem _ fun e he m hm => ⟨e, he, hm⟩)
  obtain ⟨hfrom, chunks, hchunks⟩ := hbrought
  refine ⟨hfrom, fun hall => (hkeeps hall).1, chunks, hchunks, fun d' s' out hout => ?_⟩
  obtain ⟨-, pieces, hpieces, hbytes⟩ := Store.exportTree_content hout
  rcases eq_or_collision_of_map_eq (hpieces.trans hchunks.1.symm) with rfl | hc
  · exact .inl (TorrentMeta.describes_iff hout (by rw [hbytes]; exact hchunks.2))
  · exact .inr ⟨pieces, hpieces, hbytes, hc⟩

end

end Resolve

/-- The one provider found answers as an honest provider of `x` does. -/
def eventsOfX [Blake3] [FastCDC] : List (Resolve.Event Unit) :=
  .record (.ok (some rootOfX.bytes)) :: .found (.ok [()]) ::
    (answersOfX.map .answered ++ [.check])

/-- What has been returned, and what an export of it gives. -/
def Resolve.exported [Blake3] {Peer : Type} : Resolve Peer →
    Option (Manifest × Except StoreError (List (Text × Bytes)))
  | .returned d s (.ok (some m)) => some (m, (s.exportTree d m).1)
  | _ => none

/-- The torrent of one byte `x`, resolved into a fresh store and exported. -/
def resolveOfX [Blake3] [FastCDC] [Sha1] (path : Text) :
    Option (Manifest × Except StoreError (List (Text × Bytes))) :=
  (runs (Resolve.step (some (torrentOfX path))) (.mapping (Disk.fresh ∅ ∅ some) Store.fresh)
    eventsOfX).bind Resolve.exported

/-- A run of `resolveOfX` that has an outcome. -/
theorem exists_run_of_resolveOfX [Blake3] [FastCDC] [Sha1] {path : Text} {m : Manifest}
    {r : Except StoreError (List (Text × Bytes))} (h : resolveOfX path = some (m, r)) :
    ∃ d s, runs (Resolve.step (some (torrentOfX path)))
        (.mapping (Disk.fresh ∅ ∅ some) Store.fresh) eventsOfX =
          some (.returned d s (.ok (some m))) ∧ (s.exportTree d m).1 = r := by
  obtain ⟨st, hrun, hview⟩ := Option.bind_eq_some_iff.mp h
  unfold Resolve.exported at hview
  split at hview
  · next d s m' =>
    cases hview
    exact ⟨d, s, hrun, rfl⟩
  · cases hview

/-- A torrent that declares the file under the provider's name for it. -/
theorem resolve_describes_x :
    let _ := blake3OfX
    let _ := minFastCDC
    let _ := sha1OfX
    let m := Manifest.fromFiles [(dataPath, [120])] none
    ∃ d s chunks, runs (Resolve.step (some (torrentOfX dataPath)))
        (.mapping (Disk.fresh ∅ ∅ some) Store.fresh) eventsOfX =
          some (.returned d s (.ok (some m))) ∧
      (s.exportTree d m).1 = .ok [(dataPath, [120])] ∧
      ((torrentOfX dataPath).Describes [(dataPath, [120])] ∨
        ∃ pieces, pieces.map Hash.of = m.hashes ∧ [120] = pieces.flatten ∧
          Collision Hash.of pieces chunks) := by
  have h : @resolveOfX blake3OfX minFastCDC sha1OfX dataPath =
      some (@Manifest.fromFiles blake3OfX minFastCDC [(dataPath, [120])] none,
        .ok [(dataPath, [120])]) := by
    decide +kernel
  have hdeclares : (@Manifest.fromFiles blake3OfX minFastCDC [(dataPath, [120])] none).Declares
      (torrentOfX dataPath) := by
    decide +kernel
  let _ := blake3OfX
  let _ := minFastCDC
  let _ := sha1OfX
  obtain ⟨d, s, hrun, hexport⟩ := exists_run_of_resolveOfX h
  obtain ⟨-, -, chunks, -, hall⟩ := Resolve.resolve_describes_iff hrun rfl
  refine ⟨d, s, chunks, hrun, hexport, ?_⟩
  exact (hall d s _ hexport).imp_left fun hiff => hiff.mpr hdeclares

/-- Another file is exported: the torrent declares the file `a`, the provider's manifest lists the
file `data`, and that is what is returned and exported. -/
theorem resolve_renames_x :
    let _ := blake3OfX
    let _ := minFastCDC
    let _ := sha1OfX
    let info := torrentOfX pathA
    ∃ d s m out, runs (Resolve.step (some info)) (.mapping (Disk.fresh ∅ ∅ some) Store.fresh)
        eventsOfX = some (.returned d s (.ok (some m))) ∧
      (s.exportTree d m).1 = .ok out ∧
      out.map (fun f => f.1) ≠ info.files.map fun f => f.path := by
  have h : @resolveOfX blake3OfX minFastCDC sha1OfX pathA =
      some (@Manifest.fromFiles blake3OfX minFastCDC [(dataPath, [120])] none,
        .ok [(dataPath, [120])]) := by
    decide +kernel
  let _ := blake3OfX
  let _ := minFastCDC
  let _ := sha1OfX
  obtain ⟨d, s, hrun, hexport⟩ := exists_run_of_resolveOfX h
  exact ⟨d, s, _, _, hrun, hexport, by decide⟩

end Np2ptp
