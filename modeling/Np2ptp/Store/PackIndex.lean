import Np2ptp.Store.Exclusion
import Np2ptp.Store.History

/-!
# The pack index under crashes

Writers may die after any part of a chunk or of an index line, so the index can hold pieces of
lines. Every closed line of it ends as a whole line does, or is the end of one (`Disk.Fragment`),
and of these only the whole line is read as an entry (`packEntry_fragment`). So an entry is always
the one some `put` wrote, after its chunk was placed (`pack_index_designates`).
-/

namespace Np2ptp

open Lib

/-! ## What is read as an entry -/

/-- A hash, a tab, and a rest with two more tabs. -/
def EntryShaped (s : Bytes) : Prop :=
  ∃ hex rest, s = hex ++ TAB :: rest ∧ TAB ∉ hex ∧ hex.length = 64 ∧ rest.count TAB = 2

theorem entryShaped_packIndexText (h : Hash) (loc : PackLoc) :
    EntryShaped (packIndexText h loc) := by
  have hcount : ∀ n, (decimal n).count TAB = 0 := fun n =>
    List.count_eq_zero.mpr (TAB_notMem_decimal n)
  refine ⟨h.toHex, _, rfl, TAB_notMem_toHex h, h.toHex_length, ?_⟩
  simp [hcount]

/-- Only a text of that shape is read as an entry. -/
theorem entryShaped_of_parse {s : Bytes} {e : Hash × PackLoc}
    (h : parsePackIndexLine s = some e) : EntryShaped s := by
  unfold parsePackIndexLine at h
  split at h
  · next hash packId offset length hfields =>
    split at h
    · next hhash hid hoffset hlen =>
      obtain ⟨r, rfl, hno, hr⟩ := splitN_sound hfields (by simp)
      obtain ⟨r, rfl, hno1, hr⟩ := splitN_sound hr (by simp)
      obtain ⟨r, rfl, hno2, hr⟩ := splitN_sound hr (by simp)
      have hlast : r = length := by simpa [splitN] using hr
      subst hlast
      have hno3 : TAB ∉ r := by
        intro hm
        rcases (mem_of_parseUnsigned hlen).2 _ hm with he | he
        · exact absurd he (by decide)
        · exact absurd he (by decide)
      refine ⟨hash, _, rfl, hno, Hash.length_of_fromHex hhash, ?_⟩
      simp [List.count_eq_zero.mpr, hno1, hno2, hno3]
    · cases h
  · cases h

/-- Of two texts of that shape one is the end of the other only if they are the same. -/
theorem EntryShaped.eq_of_suffix {s t : Bytes} (hs : EntryShaped s) (ht : EntryShaped t)
    (h : s <:+ t) : s = t := by
  obtain ⟨x, rfl⟩ := h
  obtain ⟨hex, rest, rfl, hno, hlen, hcount⟩ := hs
  obtain ⟨hex', rest', he, hno', hlen', hcount'⟩ := ht
  have hx : TAB ∉ x := by
    have hc := congrArg (List.count TAB) he
    simp only [List.count_append, List.count_cons_self, hcount, hcount',
      List.count_eq_zero.mpr hno, List.count_eq_zero.mpr hno'] at hc
    exact List.count_eq_zero.mp (by omega)
  have hsplit : x ++ hex = hex' := by
    have hp : ∀ {a : Bytes}, TAB ∉ a → ∀ b ∈ a, (b != TAB) = true := fun ha b hb => by
      simp only [bne_iff_ne, ne_eq]
      rintro rfl
      exact ha hb
    have hw := congrArg (List.takeWhile (· != TAB)) he
    rw [← List.append_assoc, List.takeWhile_append_of_pos (hp (by simp [hx, hno])),
      List.takeWhile_append_of_pos (hp hno')] at hw
    simpa using hw
  have hzero : x = [] := by
    have := congrArg List.length hsplit
    rw [List.length_append] at this
    exact List.eq_nil_of_length_eq_zero (by omega)
  rw [hzero, List.nil_append]

/-- Of all pieces of lines only a whole line is read as an entry: not the end of one, and not one
behind a piece of another. -/
theorem packEntry_fragment {l : Bytes} {h : Hash} {loc : PackLoc} {e : Hash × PackLoc}
    (hl : l ≠ []) (hp : l <:+ packIndexLine h loc ∨ packIndexLine h loc <:+ l)
    (he : packEntry l = some e) : l = packIndexLine h loc := by
  obtain ⟨body, rfl, hbody⟩ : ∃ body, l = body ++ [LF] ∧
      (body <:+ packIndexText h loc ∨ packIndexText h loc <:+ body) := by
    rcases hp with hp | hp
    · rcases List.suffix_concat_iff.mp hp with rfl | ⟨body, rfl, hbody⟩
      · exact absurd rfl hl
      · exact ⟨body, rfl, .inl hbody⟩
    · obtain ⟨x, rfl⟩ := hp
      exact ⟨x ++ packIndexText h loc, by rw [packIndexLine, List.append_assoc],
        .inr (List.suffix_append _ _)⟩
  have hne : (packIndexText h loc).getLast? ≠ none := by
    rw [ne_eq, List.getLast?_eq_none_iff]
    intro hnil
    obtain ⟨hex, rest, hshape, -⟩ := entryShaped_packIndexText h loc
    simp [hnil] at hshape
  have hCR : body.getLast? ≠ some CR := by
    rcases hbody with ⟨x, hx⟩ | ⟨x, rfl⟩
    · intro hlast
      refine packIndexText_getLast h loc ?_
      rw [← hx, List.getLast?_append, hlast]
      rfl
    · intro hlast
      rw [List.getLast?_append] at hlast
      cases ht : (packIndexText h loc).getLast? with
      | none => exact hne ht
      | some c =>
        rw [ht] at hlast
        exact packIndexText_getLast h loc (ht.trans hlast)
  rw [packEntry, stripLineEnd_line hCR] at he
  have hs := entryShaped_of_parse he
  rw [packIndexLine]
  rcases hbody with hb | hb
  · rw [hs.eq_of_suffix (entryShaped_packIndexText h loc) hb]
  · rw [(entryShaped_packIndexText h loc).eq_of_suffix hs hb]

/-- A line behind a torn one is read as no entry. -/
theorem packEntry_glued {t : Bytes} {h : Hash} {loc : PackLoc} (ht : t ≠ []) :
    packEntry (t ++ packIndexLine h loc) = none := by
  by_contra hsome
  obtain ⟨e, he⟩ := Option.ne_none_iff_exists'.mp hsome
  have hl := packEntry_fragment (by simp [ht]) (.inr (List.suffix_append t _)) he
  exact ht (List.append_left_eq_self.mp hl)

/-- Part of a line that is added to a log, whatever stands before it, closes at most itself. -/
theorem mem_closedLines_append_take {s l : Bytes} {h : Hash} {loc : PackLoc} {n : Nat}
    (hl : l ∈ closedLines LF (s ++ (packIndexLine h loc).take n)) :
    l ∈ closedLines LF s ∨ packIndexLine h loc <:+ l := by
  have hLF := LF_notMem_packIndexText h loc
  by_cases hn : n ≤ (packIndexText h loc).length
  · rw [packIndexLine, List.take_append_of_le_length hn,
      closedLines_append_of_notMem fun hm => hLF (List.mem_of_mem_take hm)] at hl
    exact .inl hl
  · have hall : (packIndexLine h loc).take n = packIndexLine h loc :=
      List.take_of_length_le (by
        simp only [packIndexLine, List.length_append, List.length_singleton]
        omega)
    rw [hall, packIndexLine, closedLines_append_line hLF, List.mem_append,
      List.mem_singleton] at hl
    refine hl.imp_right ?_
    rintro rfl
    rw [List.append_assoc]
    exact List.suffix_append _ _

/-! ## Pieces of lines of placed chunks -/

section

variable [Blake3]

/-- The end of a line of a placed chunk, or such a line with something before it. -/
def Disk.Fragment (d : Disk) (l : Bytes) : Prop :=
  ∃ bytes loc, d.Placed bytes loc ∧ bytes.length < 2 ^ 32 ∧
    (l <:+ packIndexLine (Hash.of bytes) loc ∨ packIndexLine (Hash.of bytes) loc <:+ l)

/-- Every closed line of the text is a fragment. -/
def Disk.Legible (d : Disk) (s : Bytes) : Prop := ∀ l ∈ closedLines LF s, d.Fragment l

theorem Disk.Fragment.grow {d d' : Disk} (h : PacksGrow d.packs d'.packs) {l : Bytes}
    (hl : d.Fragment l) : d'.Fragment l := by
  obtain ⟨bytes, loc, hp, hlen, hpart⟩ := hl
  exact ⟨bytes, loc, hp.grow h, hlen, hpart⟩

theorem Disk.Legible.grow {d d' : Disk} (h : PacksGrow d.packs d'.packs) {s : Bytes}
    (hs : d.Legible s) : d'.Legible s := fun l hl => (hs l hl).grow h

/-- The end of a fragment is one. -/
theorem Disk.Fragment.suffix {d : Disk} {l l' : Bytes} (hl : d.Fragment l) (h : l' <:+ l) :
    d.Fragment l' := by
  obtain ⟨bytes, loc, hp, hlen, hpart | hpart⟩ := hl
  · exact ⟨bytes, loc, hp, hlen, .inl (h.trans hpart)⟩
  · exact ⟨bytes, loc, hp, hlen, List.suffix_or_suffix_of_suffix h hpart⟩

/-- Part of a line of a placed chunk may be added, whatever stands before it. -/
theorem Disk.Legible.append {d : Disk} {s bytes : Bytes} {loc : PackLoc} (hs : d.Legible s)
    (hp : d.Placed bytes loc) (hlen : bytes.length < 2 ^ 32) (n : Nat) :
    d.Legible (s ++ (packIndexLine (Hash.of bytes) loc).take n) := by
  intro l hl
  rcases mem_closedLines_append_take hl with hl | hsuff
  · exact hs l hl
  · exact ⟨bytes, loc, hp, hlen, .inr hsuff⟩

/-- The whole lines of a text may be put back over another text. -/
theorem Disk.Legible.overlay {d : Disk} {kept s : Bytes} (hk : d.Legible kept)
    (hclosed : Terminated LF kept) (hs : d.Legible s) : d.Legible (kept ++ s.drop kept.length) := by
  intro l hl
  rw [closedLines_append, hclosed.torn_eq, List.nil_append, List.mem_append] at hl
  rcases hl with hl | hl
  · exact hk l hl
  · obtain ⟨l', hl', hsuff⟩ := closedLines_drop hl
    exact (hs l' hl').suffix hsuff

/-! ## The outline -/

/-- A thread has a chunk shorter than 4 GiB, and its index line lands at once. -/
def Pc.Whole (pc : Pc) : Prop :=
  (∀ bytes, pc.chunk = some bytes → bytes.length < 2 ^ 32) ∧
    ∀ bytes loc rest, pc = .appending bytes loc rest →
      rest = [] ∨ rest = packIndexLine (Hash.of bytes) loc

/-- What an opening is about to write back are whole lines. -/
def Opening.Legible (d : Disk) (o : Opening) : Prop :=
  ∀ kept, o = .truncate kept ∨ o = .writeBack kept → d.Legible kept ∧ Terminated LF kept

/-- The outline of the index: it consists of pieces of lines of placed chunks. -/
def listing : Outline where
  files d := d.Legible d.index
  handle _ _ := True
  thread _ _ _ pc := pc.Whole
  opener d _ _ o := o.Legible d
  returned _ _ := True

/-- The bytes of its index line that a thread has still to append. -/
def Pc.pending : Pc → Bytes
  | .appending _ _ rest => rest
  | _ => []

/-- Chunks are shorter than 4 GiB, and an index line is appended whole unless its writer dies or
its write fails. -/
def Sys.WholeLines (sys : Sys) : Action → Prop
  | .call _ _ (.put bytes) => bytes.length < 2 ^ 32
  | .land i t n => (sys.pcs i t).pending.length ≤ n
  | _ => True

instance (sys : Sys) : ∀ a, Decidable (sys.WholeLines a)
  | .call _ _ (.put bytes) => inferInstanceAs (Decidable (bytes.length < 2 ^ 32))
  | .land i t n => inferInstanceAs (Decidable ((sys.pcs i t).pending.length ≤ n))
  | .call _ _ (.has _) | .call _ _ (.get _) | .open _ | .openStep _ | .step .. | .fault ..
  | .tear .. | .crash _ => .isTrue trivial

theorem listing_stable {i : Nat} {d d' : Disk} {guard guard' : Option Owner}
    (hgrow : PacksGrow d.packs d'.packs) (h : d.Legible d.index → d'.Legible d'.index) :
    listing.Stable i d guard d' guard' where
  files := h
  handle _ := id
  thread _ _ _ _ _ := id
  opener _ _ _ ho kept hk := ⟨(ho kept hk).1.grow hgrow, (ho kept hk).2⟩
  returned _ := id

theorem Pc.Whole.idle : Pc.idle.Whole := by
  refine ⟨fun bytes h => ?_, fun bytes loc rest h => ?_⟩
  · cases h
  · cases h

/-- A step of a thread with a whole line to write leads to another such thread. -/
theorem Pc.Whole.next {c : Shared} {pc pc' : Pc} {e : Effect} {puts : List Put} (hp : pc.Whole)
    (hn : pc.next c = some (e, pc', puts)) : pc'.Whole := by
  refine ⟨fun bytes h => hp.1 bytes ((Pc.next_chunk hn).1 bytes h), ?_⟩
  rintro bytes loc rest rfl
  by_cases hplain : pc.Plain
  · rcases (hplain.next hn).2.1 with h | ⟨b, h⟩
    · cases h
    · cases h
  cases pc with
  | writing bytes id offset rest =>
    simp only [Pc.next] at hn
    split at hn <;> cases hn
    exact .inr rfl
  | rotate | guardWait | seek | appending | inserting | bumping | unlocking =>
    simp only [Pc.next] at hn
    repeat' split at hn
    all_goals cases hn
  | _ => exact absurd trivial hplain

/-- The bytes that land in the index are the first ones of a line of a placed chunk. -/
theorem Pc.Whole.land {c : Shared} {i t n : Nat} {pc pc' : Pc} {e : Effect} (hp : pc.Whole)
    (hplaced : pc.Placing c i t) (hn : pc.land c n = some (e, pc'))
    (hd : c.disk.Legible c.disk.index) :
    (e.apply i t c).disk.Legible (e.apply i t c).disk.index := by
  have hgrow := (Pc.land_placing hplaced hn).2.2.1
  cases pc with
  | writing bytes id offset rest =>
    simp only [Pc.land] at hn
    split at hn <;> cases hn
    exact hd.grow hgrow
  | appending bytes loc rest =>
    cases hn
    rcases hp.2 bytes loc rest rfl with rfl | rfl
    · simpa [Effect.apply] using hd
    · exact hd.append hplaced (hp.1 bytes rfl) n
  | _ => cases hn

/-- Writing back the whole lines that were read keeps the index legible. -/
theorem Opening.next_legible {i : Nat} {d d' : Disk} {guard guard' : Option Owner} {o : Opening}
    {slot : Slot} (ho : o.Legible d) (hd : d.Legible d.index)
    (hn : o.next i d guard = some (d', guard', slot)) (hgrow : PacksGrow d.packs d'.packs) :
    d'.Legible d'.index ∧ listing.slot d' guard' i slot := by
  have hnone : ∀ {o : Opening}, (∀ kept, o ≠ .truncate kept ∧ o ≠ .writeBack kept) →
      o.Legible d' := by
    intro o h kept hk
    rcases hk with hk | hk
    · exact absurd hk (h kept).1
    · exact absurd hk (h kept).2
  cases o with
  | readIndex =>
    simp only [Opening.next] at hn
    split at hn
    · split at hn
      · cases hn
        exact ⟨hd, hnone (by simp)⟩
      · cases hn
        refine ⟨hd, fun kept hk => ?_⟩
        simp only [Opening.truncate.injEq, reduceCtorEq, or_false] at hk
        subst hk
        refine ⟨?_, complete_terminated _⟩
        rw [Disk.Legible, closedLines, (complete_terminated _).complete_eq]
        exact hd
    · cases hn
      exact ⟨hd, trivial⟩
  | truncate kept =>
    cases hn
    refine ⟨fun l hl => (by cases hl), fun kept' hk => ?_⟩
    simp only [reduceCtorEq, Opening.writeBack.injEq, false_or] at hk
    subst hk
    obtain ⟨hl, hc⟩ := ho kept (.inl rfl)
    exact ⟨hl.grow hgrow, hc⟩
  | writeBack kept =>
    cases hn
    obtain ⟨hl, hc⟩ := ho kept (.inr rfl)
    exact ⟨(hl.overlay hc hd).grow hgrow, hnone (by simp)⟩
  | scan packIndex pos refs refsPos =>
    cases hn
    exact ⟨hd.grow hgrow, trivial, fun _ => .idle⟩
  | guardWait | trimRefs | release | loadIndex | loadRefs =>
    simp only [Opening.next] at hn
    repeat' split at hn
    all_goals
      cases hn <;> first
        | exact ⟨hd, hnone (by simp)⟩
        | exact ⟨hd, trivial⟩

/-- A step with whole lines keeps the outline of the index. -/
theorem listing_keeps {packs : HashMap UInt32 Bytes} {sys sys' : Sys} {a : Action}
    (hP : (placing packs).Holds sys) (hA : listing.Holds sys) (hok : sys.WholeLines a)
    (hs : sys.step a = some sys') : listing.Holds sys' := by
  refine Outline.keeps hA hs (fun i _ => ?_) (fun i o d guard slot _ hslot hn => ?_)
    (fun i t r h ha _ _ => ?_) (fun i t h e pc puts _ hlive hn => ?_)
    (fun i t n h e pc ha hlive hn => ?_) (fun i t n h e pc _ hlive hn => ?_)
    (fun i t n h e pc _ hlive hn => ?_) (fun i _ => ?_)
  · intro kept hk
    rcases hk with hk | hk <;> cases hk
  · have hgrow := (Opening.next_guarded (hP.opener _ _ hslot) hn).1.grow
    obtain ⟨hd, hnew⟩ := Opening.next_legible (hA.opener _ _ hslot) hA.files hn hgrow
    exact ⟨listing_stable hgrow fun _ => hd, hnew⟩
  · subst ha
    refine ⟨.refl _ _ _, fun _ => trivial, fun _ _ _ => id, ⟨fun bytes hb => ?_, ?_⟩, by simp⟩
    · cases r <;> cases hb
      exact hok
    · rintro bytes loc rest hr
      cases r <;> cases hr
  · obtain ⟨-, -, hgrow, -⟩ := Pc.next_placing (hP.thread _ _ hlive t) hn
    refine ⟨listing_stable hgrow fun hd => ?_, fun _ => trivial, fun _ _ _ => id,
      (hA.thread _ _ hlive t).next hn, fun _ _ => trivial⟩
    rw [Pc.next_index hn]
    exact hd.grow hgrow
  · subst ha
    have hp := hA.thread _ _ hlive t
    obtain ⟨-, -, hgrow, -⟩ := Pc.land_placing (hP.thread _ _ hlive t) hn
    refine ⟨listing_stable hgrow (hp.land (hP.thread _ _ hlive t) hn), fun _ => trivial,
      fun _ _ _ => id, ⟨fun bytes hb => hp.1 bytes (Pc.land_chunk hn ▸ hb), ?_⟩, by simp⟩
    rintro bytes loc rest rfl
    cases hpc : sys.pcs i t with
    | appending b l r =>
      rw [hpc] at hn
      cases hn
      refine .inl (List.drop_eq_nil_of_le ?_)
      simpa only [Sys.WholeLines, hpc, Pc.pending] using hok
    | writing b id offset r =>
      rw [hpc] at hn
      simp only [Pc.land] at hn
      split at hn <;> cases hn
    | _ =>
      rw [hpc] at hn
      cases hn
  · have hp := hA.thread _ _ hlive t
    obtain ⟨-, -, hgrow, -⟩ := Pc.land_placing (hP.thread _ _ hlive t) hn
    exact ⟨listing_stable hgrow (hp.land (hP.thread _ _ hlive t) hn), fun _ => trivial,
      fun _ _ _ => id, .idle, by simp⟩
  · have hp := hA.thread _ _ hlive t
    obtain ⟨-, -, hgrow, -⟩ := Pc.land_placing (hP.thread _ _ hlive t) hn
    exact listing_stable hgrow (hp.land (hP.thread _ _ hlive t) hn)
  · exact listing_stable (.refl _) id

/-! ## Runs -/

/-- The machine before any handle is opened. -/
def Sys.start (d : Disk) : Sys := ⟨d, none, fun _ => .closed, fun _ _ => .idle, []⟩

omit [Blake3] in
theorem placing_start (d : Disk) : (placing d.packs).Holds (Sys.start d) :=
  ⟨.refl _, by simp [Sys.start], by simp [Sys.start], by simp [Sys.start], fun _ _ _ => rfl,
    by simp [Sys.start]⟩

/-- The location is a range inside its pack file with these bytes. -/
def Disk.Designates (d : Disk) (loc : PackLoc) (bytes : Bytes) : Prop :=
  ∃ content, d.packs.lookup loc.packId = some content ∧
    loc.offset.toNat + loc.length.toNat ≤ content.length ∧
    (content.drop loc.offset.toNat).take loc.length.toNat = bytes

omit [Blake3] in
theorem Disk.Placed.designates {d : Disk} {bytes : Bytes} {loc : PackLoc}
    (hp : d.Placed bytes loc) (hlen : bytes.length < 2 ^ 32) : d.Designates loc bytes := by
  obtain ⟨old, more, hl, hoffset, -, hlength⟩ := hp
  have hn : loc.length.toNat = bytes.length := by
    rw [hlength]
    exact UInt32.toNat_ofNat_of_lt' hlen
  refine ⟨_, hl, ?_, ?_⟩
  · simp only [hoffset, hn, List.length_append]
    omega
  · rw [hoffset, hn, List.append_assoc, List.drop_left, List.take_left]

/-- The pack index never points at somebody else's bytes: after every run, in which writers may die
after any part of a chunk or of a line, a closed line that is read as an entry designates a range
with bytes of its hash, now and in every state reached later; and a line behind a torn one is read
as no entry. -/
theorem pack_index_designates {d : Disk} {sys : Sys} {as : List Action} (hindex : d.index = [])
    (hok : Along Sys.step Sys.WholeLines (Sys.start d) as)
    (hr : runs Sys.step (Sys.start d) as = some sys) :
    (∀ l ∈ closedLines LF sys.disk.index, ∀ h loc, packEntry l = some (h, loc) →
      ∃ bytes, Hash.of bytes = h ∧ ∀ bs sys', runs Sys.step sys bs = some sys' →
        sys'.disk.Designates loc bytes ∧ sys'.disk.readFromPack loc = some bytes) ∧
    ∀ t h loc, t ≠ [] → packEntry (t ++ packIndexLine h loc) = none := by
  have hstart : listing.Holds (Sys.start d) := by
    refine ⟨?_, by simp [Sys.start], by simp [Sys.start], by simp [Sys.start], fun _ _ _ => rfl,
      by simp [Sys.start]⟩
    show d.Legible d.index
    rw [hindex]
    intro l hl
    cases hl
  obtain ⟨hP, hA⟩ := runs_invariant
    (I := fun sys => (placing d.packs).Holds sys ∧ listing.Holds sys)
    (fun sys a sys' hI hok hs => ⟨placing_keeps hI.1 hs, listing_keeps hI.1 hI.2 hok hs⟩)
    ⟨placing_start d, hstart⟩ hok hr
  refine ⟨fun l hl h loc he => ?_, fun t h loc ht => packEntry_glued ht⟩
  obtain ⟨bytes, loc', hp, hlen, hpart⟩ := hA.files l hl
  have hne : l ≠ [] := by
    obtain ⟨b, -, rfl⟩ := eq_concat_of_mem_pieces (complete_terminated _) hl
    simp
  rw [packEntry_fragment hne hpart he, packEntry_packIndexLine] at he
  cases he
  refine ⟨bytes, rfl, fun bs sys' hrun => ?_⟩
  have hp' := hp.grow (Sys.packs_grow hP hrun)
  exact ⟨hp'.designates hlen, hp'.readFromPack hlen⟩

end

/-- A writer that dies within its line, the next opening, and the same chunk once more. -/
def tornThenWhole : List Action :=
  Action.opening 0 7 ++ Action.writing 0 0 [120] ++ [.tear 0 0 30] ++
    (Action.opening 0 9 ++ Action.writing 0 0 [120] ++ Action.finishing 0 0)

theorem pack_index_designates_after_tear :
    let _ := blake3OfX
    ∃ sys, runs Sys.step (Sys.start (Disk.fresh ∅ ∅ some)) tornThenWhole = some sys ∧
      closedLines LF sys.disk.index = [packIndexLine digestOfX ⟨0, 1, 1⟩] ∧
      (∀ l ∈ closedLines LF sys.disk.index, ∀ h loc, packEntry l = some (h, loc) →
        ∃ bytes, Hash.of bytes = h ∧ ∀ bs sys', runs Sys.step sys bs = some sys' →
          sys'.disk.Designates loc bytes ∧ sys'.disk.readFromPack loc = some bytes) ∧
      ∀ t h loc, t ≠ [] → packEntry (t ++ packIndexLine h loc) = none := by
  let _ := blake3OfX
  have hlines : (runs Sys.step (Sys.start (Disk.fresh ∅ ∅ some)) tornThenWhole).map
      (fun sys => closedLines LF sys.disk.index) = some [packIndexLine digestOfX ⟨0, 1, 1⟩] := by
    decide +kernel
  obtain ⟨sys, hr, hl⟩ := Option.map_eq_some_iff.mp hlines
  exact ⟨sys, hr, hl, pack_index_designates rfl (by decide +kernel) hr⟩

end Np2ptp
