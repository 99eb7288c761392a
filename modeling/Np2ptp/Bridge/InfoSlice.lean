import Np2ptp.Bridge.BencodeLaws

/-!
# The bytes under the infohash

`decode` builds the tree of a torrent file, and `find_info_offset` walks over the same bytes once
more to find where the `info` value begins. The walk decodes the values that it passes at depth 0
and `decode` has decoded them one level down, which only reads less (`readsMore_decodeLevels`). So
the walk comes by the places that the loop of `decode_dict` has been to (`locate`), and stops at the
first value under the key (`infoOffsetFrom_eq`): what is hashed is what that value was decoded from
(`infohash_slice`).
-/

namespace Np2ptp.Bencode

open Lib

/-! ## The loop of `decode_dict` with its places -/

/-- An entry of a dictionary, and the places in the input where its value begins and ends. -/
structure Located where
  key : Bytes
  value : Value
  start : Nat
  stop : Nat

def Located.entry (l : Located) : Bytes × Value := (l.key, l.value)

/-- The loop of `decode_dict` over the end `rest` of an input of `size` bytes, with the places of
the values. -/
def locate (decode : Decoder) (size : Nat) :
    Nat → Bytes → Except BridgeError (List Located × Bytes)
  | 0, _ => .error (err "unterminated dict")
  | fuel + 1, rest =>
    match rest with
    | [] => .error (err "unterminated dict")
    | b :: t =>
      if b = 101 then .ok ([], t)
      else do
        let (key, r) ← decodeByteString rest
        let (v, r₂) ← decode r
        let (ls, rest) ← locate decode size fuel r₂
        return (⟨key, v, size - r.length, size - r₂.length⟩ :: ls, rest)

/-- `decode` of a dictionary at depth 0, with the places of its values. -/
def locateDict (bytes : Bytes) : Except BridgeError (List Located × Bytes) := do
  let rest ← okOr (stripPrefix 100 bytes) "expected 'd'"
  locate (decodeLevels MAX_DEPTH) bytes.length (rest.length + 1) rest

/-- What is left of `parse_torrent_file` when it has the `info` value and the bytes of it. -/
def torrentMetaOf [Sha1] (infoBytes : Bytes) (info : Value) : Except BridgeError TorrentMeta := do
  let name ← okOr ((info.dictGet (ascii "name")).bind Value.asBytes) "info.name missing"
  let name := Text.ofLossy name
  let pieceLength ← okOr ((info.dictGet (ascii "piece length")).bind Value.asInt)
    "info.piece length missing"
  ensure (0 ≤ pieceLength ∧ pieceLength < 2 ^ 32) "info.piece length out of range"
  ensure (pieceLength ≠ 0 ∧ pieceLength ≤ MAX_PIECE_LENGTH)
    "info.piece length is zero or unreasonably large"
  let pieces ← okOr ((info.dictGet (ascii "pieces")).bind Value.asBytes) "info.pieces missing"
  if h : pieces.length % 20 = 0 then
    let files ← parseFiles info name
    return ⟨(Sha1.digest infoBytes).1, name, files, .ofNat pieceLength.toNat,
      pieceHashesOf pieces h⟩
  else .error (err "info.pieces length is not a multiple of 20")

theorem parseTorrentFile_eq [Sha1] (bytes : Bytes) :
    parseTorrentFile bytes = (parseInfo bytes).bind fun r => torrentMetaOf r.2 r.1 := rfl

/-- The loop with its places is the loop. -/
theorem decodeEntries_locate (decode : Decoder) (size fuel : Nat) (rest : Bytes)
    (entries : List (Bytes × Value)) : decodeEntries decode fuel rest entries =
      (locate decode size fuel rest).map fun r =>
        (.dict (entries ++ r.1.map Located.entry), r.2) := by
  induction fuel generalizing rest entries with
  | zero => rfl
  | succ fuel ih =>
    cases rest with
    | nil => rfl
    | cons b t =>
      rw [decodeEntries, locate]
      by_cases hb : b = 101
      · rw [if_pos hb, if_pos hb]
        show Except.ok (Value.dict entries, t) = Except.ok (Value.dict (entries ++ []), t)
        rw [List.append_nil]
      · rw [if_neg hb, if_neg hb]
        cases decodeByteString (b :: t) with
        | error e => rfl
        | ok k =>
          obtain ⟨key, r⟩ := k
          show (decode r).bind _ = ((decode r).bind _).map _
          cases decode r with
          | error e => rfl
          | ok v =>
            show decodeEntries decode fuel v.2 (entries ++ [(key, v.1)]) =
              ((locate decode size fuel v.2).bind _).map _
            rw [ih]
            cases locate decode size fuel v.2 with
            | error e => rfl
            | ok ls =>
              show Except.ok (Value.dict (entries ++ [(key, v.1)] ++ _), ls.2) =
                Except.ok (Value.dict (entries ++ (key, v.1) :: ls.1.map Located.entry), ls.2)
              rw [List.append_assoc]
              rfl

/-! ## More levels read more -/

/-- With a level more the decoder reads what it has read, as the same value. -/
theorem readsMore_succ (levels : Nat) :
    ReadsMore (decodeLevels levels) (decodeLevels (levels + 1)) := by
  induction levels with
  | zero =>
    intro input r h
    cases h
  | succ levels ih =>
    intro input r h
    cases input with
    | nil => cases h
    | cons b t =>
      by_cases hlist : b = 108
      · subst hlist
        change decodeItems (decodeLevels levels) (t.length + 1) t [] = .ok r at h
        show decodeItems (decodeLevels (levels + 1)) (t.length + 1) t [] = .ok r
        rw [decodeItems_eq] at h ⊢
        exact (ReadsMore.readUntil (fun _ => ih.readMap _) _ _).readMap Value.list t r h
      by_cases hdict : b = 100
      · subst hdict
        change decodeEntries (decodeLevels levels) (t.length + 1) t [] = .ok r at h
        show decodeEntries (decodeLevels (levels + 1)) (t.length + 1) t [] = .ok r
        rw [decodeEntries_eq] at h ⊢
        exact (ReadsMore.readUntil (fun _ => .readThen fun _ => ih.readMap _) _ _).readMap
          Value.dict t r h
      by_cases hint : b = 105
      · subst hint
        exact h
      rw [decodeLevels_of_ne ⟨hint, hlist, hdict⟩] at h ⊢
      exact h

theorem readsMore_decodeLevels {n m : Nat} (h : n ≤ m) :
    ReadsMore (decodeLevels n) (decodeLevels m) := by
  induction m, h using Nat.le_induction with
  | base => exact fun _ _ h => h
  | succ m _ ih => exact fun input r h => readsMore_succ m input r (ih input r h)

/-! ## The two walks -/

/-- A self-delimiting reader leaves an end of its input. -/
theorem SelfDelimiting.suffix {α : Type} {read : Bytes → Except BridgeError (α × Bytes)}
    (h : SelfDelimiting read) {input rest : Bytes} {a : α} (hread : read input = .ok (a, rest)) :
    rest <:+ input := by
  obtain ⟨used, -, rfl, -⟩ := h input a rest hread
  exact List.suffix_append used rest

/-- The walk of `find_info_offset` ends at the first `info` value that the loop of `decode_dict` has
been to. -/
theorem infoOffsetFrom_eq {levels size : Nat} (hlevels : levels ≤ MAX_DEPTH + 1) {l : Located}
    {fuel : Nat} {rest rest' : Bytes} {ls : List Located}
    (h : locate (decodeLevels levels) size fuel rest = .ok (ls, rest'))
    (hl : ls.find? (fun l => l.key = ascii "info") = some l) :
    infoOffsetFrom size fuel rest = .ok l.start ∧ ∃ r r₂, r <:+ rest ∧
      decodeLevels levels r = .ok (l.value, r₂) ∧ l.start = size - r.length ∧
      l.stop = size - r₂.length := by
  induction fuel generalizing rest ls with
  | zero => cases h
  | succ fuel ih =>
    cases rest with
    | nil => cases h
    | cons b t =>
      rw [locate] at h
      rw [infoOffsetFrom]
      by_cases hb : b = 101
      · rw [if_pos hb] at h
        cases h
        cases hl
      · rw [if_neg hb] at h ⊢
        obtain ⟨⟨key, r⟩, hkey, h⟩ := bind_eq_ok.mp h
        obtain ⟨⟨v, r₂⟩, hv, h⟩ := bind_eq_ok.mp h
        obtain ⟨⟨more, end₂⟩, hmore, h⟩ := bind_eq_ok.mp h
        cases h
        have hr : r <:+ b :: t := SelfDelimiting.suffix selfDelimiting_decodeByteString hkey
        rw [hkey]
        show (if key = ascii "info" then _ else _ : Except BridgeError Nat) = _ ∧ _
        by_cases hinfo : key = ascii "info"
        · rw [if_pos hinfo]
          rw [List.find?_cons_of_pos (by simpa using hinfo)] at hl
          cases hl
          exact ⟨rfl, r, r₂, hr, hv, rfl, rfl⟩
        · rw [if_neg hinfo]
          rw [List.find?_cons_of_neg (by simpa using hinfo)] at hl
          obtain ⟨hwalk, r', r₂', hr', hfound⟩ := ih hmore hl
          have hr₂ := SelfDelimiting.suffix (selfDelimiting_decodeLevels levels) hv
          -- the walk decodes the value that it passes with all the levels there are
          have hpassed : decode r 0 = .ok (v, r₂) := readsMore_decodeLevels hlevels r _ hv
          rw [hpassed]
          exact ⟨hwalk, r', r₂', hr'.trans (hr₂.trans hr), hfound⟩

/-- What stands between two ends of an input. -/
theorem take_drop_of_suffix {bytes r r₂ : Bytes} (hr : r <:+ bytes) (hr₂ : r₂ <:+ r) :
    bytes.drop (bytes.length - r.length) = r ∧
      (bytes.take (bytes.length - r₂.length)).drop (bytes.length - r.length) =
        r.take (r.length - r₂.length) := by
  obtain ⟨before, rfl⟩ := hr
  obtain ⟨used, rfl⟩ := hr₂
  have hlength : (before ++ (used ++ r₂)).length - (used ++ r₂).length = before.length := by
    rw [List.length_append, Nat.add_sub_cancel]
  have hstop : (before ++ (used ++ r₂)).length - r₂.length = (before ++ used).length := by
    rw [← List.append_assoc, List.length_append, Nat.add_sub_cancel]
  have hused : (used ++ r₂).length - r₂.length = used.length := by
    rw [List.length_append, Nat.add_sub_cancel]
  rw [hlength, hstop, hused, List.drop_left, List.take_left, ← List.append_assoc, List.take_left,
    List.drop_left]
  exact ⟨rfl, rfl⟩

/-- Only what begins with a `d` is decoded to a dictionary. -/
theorem exists_of_decode_dict {levels : Nat} {input rest : Bytes} {entries : List (Bytes × Value)}
    (h : decodeLevels (levels + 1) input = .ok (.dict entries, rest)) :
    ∃ t, input = 100 :: t := by
  cases input with
  | nil => cases h
  | cons b t =>
    by_cases hdict : b = 100
    · exact ⟨t, by rw [hdict]⟩
    exfalso
    by_cases hint : b = 105
    · subst hint
      obtain ⟨s, n, -, -, -, -, hv⟩ := decodeInt_eq_ok.mp h
      cases hv
    by_cases hlist : b = 108
    · subst hlist
      change decodeItems (decodeLevels levels) (t.length + 1) t [] = _ at h
      rw [decodeItems_eq] at h
      cases hr : readUntil 101 (err "unterminated list") (itemStep (decodeLevels levels))
          (t.length + 1) t [] with
      | error e =>
        rw [hr] at h
        cases h
      | ok r =>
        rw [hr] at h
        cases h
    rw [decodeLevels_of_ne ⟨hint, hlist, hdict⟩, readMap] at h
    split at h
    · cases hr : decodeByteString (b :: t) with
      | error e =>
        rw [hr] at h
        cases h
      | ok r =>
        rw [hr] at h
        cases h
    · cases h

/-- The dictionary that `decode` returns at depth 0 is the one that `locateDict` reads. -/
theorem locateDict_of_decode {bytes rest : Bytes} {entries : List (Bytes × Value)}
    (h : decode bytes 0 = .ok (.dict entries, rest)) :
    ∃ ls, locateDict bytes = .ok (ls, rest) ∧ ls.map Located.entry = entries := by
  obtain ⟨t, rfl⟩ := exists_of_decode_dict h
  change decodeEntries (decodeLevels MAX_DEPTH) (t.length + 1) t [] = _ at h
  rw [decodeEntries_locate _ (100 :: t).length] at h
  cases hr : locate (decodeLevels MAX_DEPTH) (100 :: t).length (t.length + 1) t with
  | error e =>
    rw [hr] at h
    cases h
  | ok r =>
    rw [hr] at h
    cases h
    exact ⟨r.1, hr, rfl⟩

/-- The infohash is taken over the right bytes: where the whole decodes to a dictionary with an
`info` key, the offset is the place of the first value under it, what is hashed is what that value
was decoded from (one level down, as the value of an entry), and the fields are read from that
value. -/
theorem infohash_slice {bytes rest : Bytes} {entries : List (Bytes × Value)}
    (h : decode bytes 0 = .ok (.dict entries, rest))
    (hinfo : ∃ e ∈ entries, e.1 = ascii "info") :
    ∃ ls l, locateDict bytes = .ok (ls, rest) ∧ ls.map Located.entry = entries ∧
      ls.find? (fun l => l.key = ascii "info") = some l ∧
      (Value.dict entries).dictGet (ascii "info") = some l.value ∧
      findInfoOffset bytes = .ok l.start ∧
      (∀ tail, decode ((bytes.take l.stop).drop l.start ++ tail) 1 = .ok (l.value, tail)) ∧
      parseInfo bytes = .ok (l.value, (bytes.take l.stop).drop l.start) ∧
      ∀ [Sha1], parseTorrentFile bytes =
        torrentMetaOf ((bytes.take l.stop).drop l.start) l.value := by
  obtain ⟨ls, hlocate, rfl⟩ := locateDict_of_decode h
  obtain ⟨t, rfl⟩ := exists_of_decode_dict h
  have hsome : (ls.find? fun l => l.key = ascii "info").isSome := by
    obtain ⟨e, he, hkey⟩ := hinfo
    obtain ⟨l, hl, rfl⟩ := List.mem_map.mp he
    exact List.find?_isSome.mpr ⟨l, hl, decide_eq_true hkey⟩
  obtain ⟨l, hl⟩ := Option.isSome_iff_exists.mp hsome
  obtain ⟨hwalk, r, r₂, hr, hv, hstart, hstop⟩ := infoOffsetFrom_eq (Nat.le_succ _) hlocate hl
  have hsuffix : r <:+ 100 :: t := hr.trans (List.suffix_cons 100 t)
  obtain ⟨hdrop, hslice⟩ := take_drop_of_suffix hsuffix
    (SelfDelimiting.suffix (selfDelimiting_decodeLevels MAX_DEPTH) hv)
  have hvalue : decode r 0 = .ok (l.value, r₂) := readsMore_succ MAX_DEPTH r _ hv
  have hoffset : findInfoOffset (100 :: t) = .ok l.start := hwalk
  have hparse : parseInfo (100 :: t) =
      .ok (l.value, ((100 :: t).take l.stop).drop l.start) := by
    rw [hstart, hstop, hslice]
    refine bind_eq_ok.mpr ⟨_, hoffset, ?_⟩
    rw [hstart, hdrop]
    exact bind_eq_ok.mpr ⟨_, hvalue, rfl⟩
  refine ⟨ls, l, hlocate, rfl, hl, ?_, hoffset, fun tail => ?_, hparse, ?_⟩
  · show ((ls.map Located.entry).find? _).map Prod.snd = some l.value
    rw [List.find?_map, show ((fun e : Bytes × Value => decide (e.1 = ascii "info")) ∘
      Located.entry) = fun l : Located => decide (l.key = ascii "info") from rfl, hl]
    rfl
  · obtain ⟨used, -, rfl, htail⟩ := selfDelimiting_decodeLevels MAX_DEPTH r _ _ hv
    rw [hstart, hstop, hslice, List.length_append, Nat.add_sub_cancel, List.take_left]
    exact htail tail
  · intro _
    rw [parseTorrentFile_eq, hparse]
    rfl

/-- `{ "a": [1], "info": { "length": 1 }, "info": 5 }`, and two bytes behind it. -/
theorem infohash_slice_x :
    let v := Value.dict [(ascii "a", .list [.int 1]),
      (ascii "info", .dict [(ascii "length", .int 1)]), (ascii "info", .int 5)]
    ∃ ls l, locateDict (v.encode ++ [101, 101]) = .ok (ls, [101, 101]) ∧
      ls.find? (fun l => l.key = ascii "info") = some l ∧
      findInfoOffset (v.encode ++ [101, 101]) = .ok l.start ∧
      l.value = .dict [(ascii "length", .int 1)] := by
  intro v
  have hfits : v.Fits := by
    simp only [v, Value.Fits, FitEntries, FitItems]
    decide
  have hdecode : decode (v.encode ++ [101, 101]) 0 = .ok (v, [101, 101]) :=
    decodeLevels_encode (MAX_DEPTH + 1) hfits (by decide) _
  obtain ⟨ls, l, hlocate, -, hl, hget, hoffset, -⟩ :=
    infohash_slice hdecode ⟨_, List.mem_cons_of_mem _ List.mem_cons_self, rfl⟩
  exact ⟨ls, l, hlocate, hl, hoffset, (Option.some.inj hget).symm⟩

end Np2ptp.Bencode
