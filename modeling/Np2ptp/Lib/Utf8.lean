import Np2ptp.Lib.Text

/-!
# UTF-8 texts

Which byte strings are text, decided one byte at a time, and the text Rust makes of one that is
not (`String::from_utf8_lossy`). A decoder state says how many continuation bytes the character
read last still lacks and in which range the next one must lie; no state accepts an ASCII byte in
the middle of a character, so a line feed always stands between two characters
(`validUtf8_of_append_line`), and an ASCII byte stands for itself in the lossy text
(`lossy_append_ascii`).
-/

namespace Np2ptp.Lib

/-- A decoder state: `owed` continuation bytes are missing, the next one between `lo` and `hi`. -/
structure Utf8 where
  owed : Nat
  lo : UInt8
  hi : UInt8
  /-- A continuation byte is not ASCII. -/
  high : 128 ≤ lo

/-- Between two characters. -/
def Utf8.start : Utf8 := ⟨0, 0x80, 0xBF, by decide⟩

/-- The state after the first byte of a character, `none` for a byte that starts none. The ranges
of the second byte exclude the overlong forms, the surrogates and what is above U+10FFFF. -/
def Utf8.first (b : UInt8) : Option Utf8 :=
  if b < 0x80 then some Utf8.start
  else if b < 0xC2 then none
  else if b < 0xE0 then some ⟨1, 0x80, 0xBF, by decide⟩
  else if b = 0xE0 then some ⟨2, 0xA0, 0xBF, by decide⟩
  else if b = 0xED then some ⟨2, 0x80, 0x9F, by decide⟩
  else if b < 0xF0 then some ⟨2, 0x80, 0xBF, by decide⟩
  else if b = 0xF0 then some ⟨3, 0x90, 0xBF, by decide⟩
  else if b < 0xF4 then some ⟨3, 0x80, 0xBF, by decide⟩
  else if b = 0xF4 then some ⟨3, 0x80, 0x8F, by decide⟩
  else none

/-- One byte more. -/
def Utf8.step (st : Utf8) (b : UInt8) : Option Utf8 :=
  match st.owed with
  | 0 => Utf8.first b
  | 1 => if st.lo ≤ b ∧ b ≤ st.hi then some Utf8.start else none
  | n + 2 => if st.lo ≤ b ∧ b ≤ st.hi then some ⟨n + 1, 0x80, 0xBF, by decide⟩ else none

/-- The state after a byte string. -/
def Utf8.run (st : Utf8) : Bytes → Option Utf8
  | [] => some st
  | b :: t => (st.step b).bind fun st' => st'.run t

/-- `str::from_utf8` succeeds. -/
def validUtf8 (s : Bytes) : Bool :=
  match Utf8.start.run s with
  | some st => st.owed == 0
  | none => false

/-- A Rust `String`. -/
structure Text where
  bytes : Bytes
  valid : validUtf8 bytes = true
  deriving DecidableEq

/-- U+FFFD, the replacement character. -/
def REPLACEMENT : Bytes := [0xEF, 0xBF, 0xBD]

/-- The text made of the bytes to come, `held` being the bytes of the character begun. -/
def lossyFrom (st : Utf8) (held : Bytes) : Bytes → Bytes
  | [] => if held = [] then [] else REPLACEMENT
  | b :: t =>
    match st.step b with
    | some st' =>
      if st'.owed = 0 then held ++ b :: lossyFrom Utf8.start [] t
      else lossyFrom st' (held ++ [b]) t
    | none =>
      if held = [] then REPLACEMENT ++ lossyFrom Utf8.start [] t
      else
        -- the character begun is given up, and the byte is read again as a first one
        match Utf8.start.step b with
        | some st' =>
          if st'.owed = 0 then REPLACEMENT ++ b :: lossyFrom Utf8.start [] t
          else REPLACEMENT ++ lossyFrom st' [b] t
        | none => REPLACEMENT ++ REPLACEMENT ++ lossyFrom Utf8.start [] t

/-- `String::from_utf8_lossy`: every maximal ill-formed part becomes one replacement character. -/
def lossy (s : Bytes) : Bytes := lossyFrom Utf8.start [] s

/-! ## The decoder -/

theorem Utf8.run_append (st : Utf8) (s t : Bytes) :
    st.run (s ++ t) = (st.run s).bind fun st' => st'.run t := by
  induction s generalizing st with
  | nil => rfl
  | cons b s ih =>
    simp only [List.cons_append, Utf8.run]
    cases st.step b with
    | none => rfl
    | some st' => exact ih st'

/-- A state between two characters does what the starting one does. -/
theorem Utf8.run_of_owed_zero {st : Utf8} (h : st.owed = 0) :
    ∀ s : Bytes, s ≠ [] → st.run s = Utf8.start.run s
  | [], hs => absurd rfl hs
  | b :: t, _ => by
    simp only [Utf8.run, Utf8.step, h]
    rfl

/-- An ASCII byte is accepted between two characters only, and leaves the decoder there. -/
theorem Utf8.step_ascii {st st' : Utf8} {b : UInt8} (hb : b < 128) (h : st.step b = some st') :
    st.owed = 0 ∧ st' = Utf8.start := by
  unfold Utf8.step at h
  have hlow : ¬ st.lo ≤ b := fun hle => by
    have := UInt8.lt_of_lt_of_le hb (UInt8.le_trans st.high hle)
    exact UInt8.lt_irrefl _ this
  split at h
  · next h0 =>
    rw [Utf8.first, if_pos hb, Option.some.injEq] at h
    exact ⟨h0, h.symm⟩
  · rw [if_neg fun hr => hlow hr.1] at h
    cases h
  · rw [if_neg fun hr => hlow hr.1] at h
    cases h

theorem validUtf8_iff {s : Bytes} :
    validUtf8 s = true ↔ ∃ st, Utf8.start.run s = some st ∧ st.owed = 0 := by
  unfold validUtf8
  cases Utf8.start.run s with
  | none => simp
  | some st => simp

@[simp] theorem validUtf8_nil : validUtf8 [] = true := rfl

/-- Text before a string has no part in whether the string is text. -/
theorem validUtf8_append_of_valid {s : Bytes} (hs : validUtf8 s = true) (t : Bytes) :
    validUtf8 (s ++ t) = validUtf8 t := by
  by_cases ht : t = []
  · simp [ht, hs]
  · obtain ⟨st, hst, h0⟩ := validUtf8_iff.mp hs
    rw [validUtf8, Utf8.run_append, hst, Option.bind_some, Utf8.run_of_owed_zero h0 t ht]
    rfl

/-- Text joined to text is text. -/
theorem validUtf8_append {s t : Bytes} (hs : validUtf8 s = true) (ht : validUtf8 t = true) :
    validUtf8 (s ++ t) = true := by
  rw [validUtf8_append_of_valid hs, ht]

/-- ASCII is text. -/
theorem validUtf8_of_ascii {s : Bytes} (h : ∀ b ∈ s, b < 128) : validUtf8 s = true := by
  induction s with
  | nil => rfl
  | cons b s ih =>
    have hb : validUtf8 [b] = true := by
      have hstep : Utf8.start.step b = some Utf8.start := by
        show Utf8.first b = _
        rw [Utf8.first, if_pos (h b List.mem_cons_self)]
      rw [validUtf8, Utf8.run, hstep]
      rfl
    exact validUtf8_append hb (ih fun c hc => h c (List.mem_cons_of_mem _ hc))

/-- A line feed stands between characters: what is before it is text when the whole is. -/
theorem validUtf8_of_append_line {s t : Bytes} {b : UInt8} (hb : b < 128)
    (h : validUtf8 (s ++ b :: t) = true) : validUtf8 s = true ∧ validUtf8 t = true := by
  obtain ⟨st, hst, h0⟩ := validUtf8_iff.mp h
  rw [Utf8.run_append] at hst
  obtain ⟨mid, hmid, hrest⟩ := Option.bind_eq_some_iff.mp hst
  obtain ⟨next, hnext, htail⟩ := Option.bind_eq_some_iff.mp hrest
  obtain ⟨hm0, rfl⟩ := Utf8.step_ascii hb hnext
  exact ⟨validUtf8_iff.mpr ⟨mid, hmid, hm0⟩, validUtf8_iff.mpr ⟨st, htail, h0⟩⟩

/-! ## The lossy text -/

/-- The bytes held lead from the start to the state: they are the beginning of a character. -/
structure Held (st : Utf8) (held : Bytes) : Prop where
  run : Utf8.start.run held = some st
  owes : held ≠ [] → st.owed ≠ 0
  fresh : held = [] → st.owed = 0

theorem held_start : Held Utf8.start [] := ⟨rfl, fun h => absurd rfl h, fun _ => rfl⟩

/-- A byte that completes a character closes a text. -/
theorem Held.close {st st' : Utf8} {held : Bytes} {b : UInt8} (h : Held st held)
    (hb : st.step b = some st') (h0 : st'.owed = 0) : validUtf8 (held ++ [b]) = true := by
  refine validUtf8_iff.mpr ⟨st', ?_, h0⟩
  rw [Utf8.run_append, h.run, Option.bind_some, Utf8.run, hb]
  rfl

/-- A byte that does not complete one is held too. -/
theorem Held.push {st st' : Utf8} {held : Bytes} {b : UInt8} (h : Held st held)
    (hb : st.step b = some st') (h0 : st'.owed ≠ 0) : Held st' (held ++ [b]) := by
  refine ⟨?_, fun _ => h0, fun hn => absurd hn (by simp)⟩
  rw [Utf8.run_append, h.run, Option.bind_some, Utf8.run, hb]
  rfl

theorem validUtf8_lossyFrom (s : Bytes) :
    ∀ {st : Utf8} {held : Bytes}, Held st held → validUtf8 (lossyFrom st held s) = true := by
  have hrep : validUtf8 REPLACEMENT = true := by decide
  induction s with
  | nil =>
    intro st held _
    unfold lossyFrom
    split
    · rfl
    · exact hrep
  | cons b t ih =>
    intro st held h
    unfold lossyFrom
    split
    · next st' hb =>
      split
      · next h0 =>
        have := validUtf8_append (h.close hb h0) (ih held_start)
        rwa [List.append_assoc] at this
      · next h0 => exact ih (h.push hb h0)
    · split
      · exact validUtf8_append hrep (ih held_start)
      · split
        · next st' hb =>
          split
          · next h0 =>
            exact validUtf8_append hrep
              (validUtf8_append (held_start.close hb h0) (ih held_start))
          · next h0 => exact validUtf8_append hrep (ih (held_start.push hb h0))
        · exact validUtf8_append (validUtf8_append hrep hrep) (ih held_start)

/-- The lossy text is text. -/
theorem validUtf8_lossy (s : Bytes) : validUtf8 (lossy s) = true :=
  validUtf8_lossyFrom s held_start

theorem lossyFrom_of_run (s : Bytes) :
    ∀ {st : Utf8} {held : Bytes} {fin : Utf8}, Held st held → st.run s = some fin →
      fin.owed = 0 → lossyFrom st held s = held ++ s := by
  induction s with
  | nil =>
    intro st held fin h hrun h0
    cases hrun
    have : held = [] := by
      by_contra hne
      exact h.owes hne h0
    simp [lossyFrom, this]
  | cons b t ih =>
    intro st held fin h hrun h0
    obtain ⟨st', hb, hrest⟩ := Option.bind_eq_some_iff.mp hrun
    unfold lossyFrom
    simp only [hb]
    split
    · next h0' =>
      by_cases ht : t = []
      · simp [ht, lossyFrom]
      · rw [Utf8.run_of_owed_zero h0' t ht] at hrest
        rw [ih held_start hrest h0, List.nil_append]
    · next h0' =>
      rw [ih (h.push hb h0') hrest h0, List.append_assoc]
      rfl

/-- Text is its own lossy text. -/
theorem lossy_of_valid {s : Bytes} (h : validUtf8 s = true) : lossy s = s := by
  obtain ⟨st, hst, h0⟩ := validUtf8_iff.mp h
  exact lossyFrom_of_run s held_start hst h0

/-! ## ASCII in the lossy text -/

theorem Utf8.first_ascii {b : UInt8} (hb : b < 128) : Utf8.first b = some Utf8.start :=
  if_pos hb

/-- Nothing is held between two characters. -/
theorem Held.eq_nil {st : Utf8} {held : Bytes} (h : Held st held) (h0 : st.owed = 0) :
    held = [] := by
  by_contra hne
  exact h.owes hne h0

/-- An ASCII byte stands for itself: the text before it and the text after it are made without
it. -/
theorem lossyFrom_append_ascii {b : UInt8} (hb : b < 128) (t s : Bytes) :
    ∀ {st : Utf8} {held : Bytes}, Held st held →
      lossyFrom st held (s ++ b :: t) = lossyFrom st held s ++ b :: lossy t := by
  induction s with
  | nil =>
    intro st held h
    rw [List.nil_append, lossyFrom, lossyFrom]
    cases hs : st.step b with
    | some st' =>
      obtain ⟨h0, rfl⟩ := Utf8.step_ascii hb hs
      simp [h.eq_nil h0, Utf8.start, lossy]
    | none =>
      have hne : held ≠ [] := by
        intro hnil
        have h0 := h.fresh hnil
        unfold Utf8.step at hs
        rw [h0] at hs
        exact absurd ((Utf8.first_ascii hb).symm.trans hs) (by simp)
      have hstart : Utf8.start.step b = some Utf8.start := Utf8.first_ascii hb
      dsimp only
      rw [if_neg hne, if_neg hne, hstart]
      rfl
  | cons c s ih =>
    intro st held h
    rw [List.cons_append, lossyFrom, lossyFrom]
    cases hs : st.step c with
    | some st' =>
      dsimp only
      split
      · rw [ih held_start, List.append_assoc]
        rfl
      · next h0 => exact ih (h.push hs h0)
    | none =>
      dsimp only
      split
      · rw [ih held_start, List.append_assoc]
      · cases hs' : Utf8.start.step c with
        | some st' =>
          dsimp only
          split
          · rw [ih held_start, List.append_assoc]
            rfl
          · next h0 =>
            rw [List.append_assoc]
            exact congrArg (REPLACEMENT ++ ·) (ih (held_start.push hs' h0))
        | none =>
          dsimp only
          rw [ih held_start, ← List.append_assoc]

theorem lossy_append_ascii {b : UInt8} (hb : b < 128) (s t : Bytes) :
    lossy (s ++ b :: t) = lossy s ++ b :: lossy t :=
  lossyFrom_append_ascii hb t s held_start

/-- A byte that begins a character and does not end it is not ASCII. -/
theorem Utf8.high_of_step {st st' : Utf8} {b : UInt8} (h : st.step b = some st')
    (h0 : st'.owed ≠ 0) : ¬ b < 128 := by
  intro hb
  rw [(Utf8.step_ascii hb h).2] at h0
  exact h0 rfl

/-- The ASCII bytes of a string are those of its lossy text. -/
theorem filter_ascii_lossyFrom (s : Bytes) :
    ∀ {st : Utf8} {held : Bytes}, Held st held → held.filter (· < 128) = [] →
      (lossyFrom st held s).filter (· < 128) = s.filter (· < 128) := by
  have hrep : REPLACEMENT.filter (· < 128) = [] := by decide
  induction s with
  | nil =>
    intro st held h hh
    rw [lossyFrom]
    split
    · rfl
    · exact hrep
  | cons b t ih =>
    intro st held h hh
    rw [lossyFrom, List.filter_cons]
    cases hs : st.step b with
    | some st' =>
      dsimp only
      split
      · rw [List.filter_append, hh, List.nil_append, List.filter_cons, ih held_start rfl]
      · next h0 =>
        have hb := Utf8.high_of_step hs h0
        rw [ih (h.push hs h0) (by simp [hh, hb])]
        simp [hb]
    | none =>
      dsimp only
      split
      · next hnil =>
        have hb : ¬ b < 128 := fun hb => by
          unfold Utf8.step at hs
          rw [h.fresh hnil] at hs
          exact absurd ((Utf8.first_ascii hb).symm.trans hs) (by simp)
        rw [List.filter_append, hrep, List.nil_append, ih held_start rfl]
        simp [hb]
      · cases hs' : Utf8.start.step b with
        | some st' =>
          dsimp only
          split
          · rw [List.filter_append, hrep, List.nil_append, List.filter_cons, ih held_start rfl]
          · next h0 =>
            have hb := Utf8.high_of_step hs' h0
            have hrest := ih (held_start.push hs' h0) (by simp [hb])
            rw [List.filter_append, hrep, List.nil_append]
            refine hrest.trans ?_
            simp [hb]
        | none =>
          have hb : ¬ b < 128 := fun hb =>
            absurd ((Utf8.first_ascii hb).symm.trans hs') (by simp)
          dsimp only
          rw [List.filter_append, List.filter_append, hrep, List.nil_append, List.nil_append,
            ih held_start rfl]
          simp [hb]

/-- An ASCII byte is in the lossy text when it is in the string. -/
theorem mem_lossy_ascii {b : UInt8} (hb : b < 128) {s : Bytes} : b ∈ lossy s ↔ b ∈ s := by
  have hfilter := filter_ascii_lossyFrom s held_start rfl
  have hmem (l : Bytes) : b ∈ l.filter (· < 128) ↔ b ∈ l := by simp [hb]
  rw [← hmem (lossy s), ← hmem s]
  unfold lossy
  rw [hfilter]

theorem lossyFrom_eq_nil (s : Bytes) : ∀ {st : Utf8} {held : Bytes}, Held st held →
    lossyFrom st held s = [] → held = [] ∧ s = [] := by
  induction s with
  | nil =>
    intro st held h hnil
    rw [lossyFrom] at hnil
    split at hnil
    · next he => exact ⟨he, rfl⟩
    · cases hnil
  | cons b t ih =>
    intro st held h hnil
    rw [lossyFrom] at hnil
    split at hnil
    · next st' hs =>
      split at hnil
      · exact absurd hnil (by simp)
      · next h0 => exact absurd (ih (h.push hs h0) hnil).1 (by simp)
    · have hrep : REPLACEMENT ≠ [] := by decide
      split at hnil
      · exact absurd (List.append_eq_nil_iff.mp hnil).1 hrep
      · split at hnil
        · split at hnil
          · exact absurd (List.append_eq_nil_iff.mp hnil).1 hrep
          · exact absurd (List.append_eq_nil_iff.mp hnil).1 hrep
        · exact absurd (List.append_eq_nil_iff.mp (List.append_eq_nil_iff.mp hnil).1).1 hrep

theorem lossy_eq_nil {s : Bytes} : lossy s = [] ↔ s = [] :=
  ⟨fun h => (lossyFrom_eq_nil s held_start h).2, fun h => by rw [h]; rfl⟩

/-- The last run of bytes that are not ASCII. -/
theorem exists_ascii_or_high : ∀ s : Bytes, (∀ b ∈ s, ¬ b < 128) ∨
    ∃ u b v, b < 128 ∧ s = u ++ b :: v ∧ ∀ c ∈ v, ¬ c < 128
  | [] => .inl fun _ hb => nomatch hb
  | b :: t => by
    rcases exists_ascii_or_high t with hhigh | ⟨u, c, v, hc, rfl, hv⟩
    · by_cases hb : b < 128
      · exact .inr ⟨[], b, t, hb, rfl, hhigh⟩
      · refine .inl fun c hc => ?_
        rcases List.mem_cons.mp hc with rfl | hc
        · exact hb
        · exact hhigh c hc
    · exact .inr ⟨b :: u, c, v, hc, rfl, hv⟩

/-- A string without ASCII has a lossy text without ASCII. -/
theorem lossy_high {s : Bytes} (h : ∀ b ∈ s, ¬ b < 128) : ∀ b ∈ lossy s, ¬ b < 128 :=
  fun b hb hlt => h b ((mem_lossy_ascii hlt).mp hb) hlt

/-- The lossy text ends with an ASCII byte when the string does. -/
theorem getLast?_lossy_ascii {b : UInt8} (hb : b < 128) {s : Bytes} :
    (lossy s).getLast? = some b ↔ s.getLast? = some b := by
  have hhigh {v : Bytes} (hv : ∀ c ∈ v, ¬ c < 128) : v.getLast? ≠ some b := fun hl =>
    hv b (List.mem_of_getLast? hl) hb
  rcases exists_ascii_or_high s with hs | ⟨u, c, v, hc, rfl, hv⟩
  · exact iff_of_false (hhigh (lossy_high hs)) (hhigh hs)
  · rw [lossy_append_ascii hc]
    by_cases hnil : v = []
    · subst hnil
      have hnone : lossy [] = [] := rfl
      rw [hnone, List.getLast?_concat, List.getLast?_concat]
    · have hlossy : lossy v ≠ [] := fun h => hnil (lossy_eq_nil.mp h)
      have hlast {x y : Bytes} (hy : y ≠ []) : (x ++ c :: y).getLast? = y.getLast? := by
        rw [List.getLast?_append_of_ne_nil _ (List.cons_ne_nil c y)]
        exact List.getLast?_cons_of_ne_nil hy
      rw [hlast hlossy, hlast hnil]
      exact iff_of_false (hhigh (lossy_high hv)) (hhigh hv)

/-- A string with an ASCII lossy text is ASCII. -/
theorem ascii_of_lossy (s : Bytes) (h : ∀ b ∈ lossy s, b < 128) : ∀ b ∈ s, b < 128 := by
  have hempty {v : Bytes} (hv : ∀ c ∈ v, ¬ c < 128) (hl : ∀ c ∈ lossy v, c < 128) : v = [] :=
    lossy_eq_nil.mp (List.eq_nil_iff_forall_not_mem.mpr fun c hc => lossy_high hv c hc (hl c hc))
  rcases exists_ascii_or_high s with hs | ⟨u, c, v, hc, hsplit, hv⟩
  · rw [hempty hs h]
    exact fun b hb => nomatch hb
  · subst hsplit
    rw [lossy_append_ascii hc] at h
    obtain rfl : v = [] := hempty hv fun b hb =>
      h b (List.mem_append_right _ (List.mem_cons_of_mem _ hb))
    intro b hb
    rcases List.mem_append.mp hb with hu | hlast
    · exact ascii_of_lossy u (fun b hb => h b (List.mem_append_left _ hb)) b hu
    · rwa [List.mem_singleton.mp hlast]
termination_by s.length
decreasing_by
  subst hsplit
  simp

/-- ASCII is the lossy text of itself only. -/
theorem lossy_eq_ascii {s t : Bytes} (ht : ∀ b ∈ t, b < 128) : lossy s = t ↔ s = t := by
  constructor
  · rintro rfl
    exact (lossy_of_valid (validUtf8_of_ascii (ascii_of_lossy s ht))).symm
  · rintro rfl
    exact lossy_of_valid (validUtf8_of_ascii ht)

/-- No field of a split has a separator. -/
theorem not_of_mem_splitOnP {p : UInt8 → Bool} (s : Bytes) :
    ∀ field ∈ s.splitOnP p, ∀ b ∈ field, p b = false := by
  induction s with
  | nil =>
    intro field hf b hb
    rw [List.splitOnP_nil, List.mem_singleton] at hf
    rw [hf] at hb
    cases hb
  | cons c t ih =>
    intro field hf b hb
    rw [List.splitOnP_cons_eq_if_modifyHead] at hf
    split at hf
    · rcases List.mem_cons.mp hf with rfl | hf
      · cases hb
      · exact ih field hf b hb
    · next hc =>
      cases hs : t.splitOnP p with
      | nil => exact absurd hs (List.splitOnP_ne_nil _ _)
      | cons f fs =>
        rw [hs, List.modifyHead_cons] at hf
        rcases List.mem_cons.mp hf with rfl | hf
        · rcases List.mem_cons.mp hb with rfl | hb
          · exact eq_false_of_ne_true hc
          · exact ih f (hs ▸ List.mem_cons_self) b hb
        · exact ih field (hs ▸ List.mem_cons_of_mem _ hf) b hb

theorem notMem_of_mem_splitOn {sep : UInt8} (s : Bytes) :
    ∀ field ∈ s.splitOn sep, sep ∉ field := by
  intro field hf hm
  rw [List.splitOn_eq_splitOnP] at hf
  have hno := not_of_mem_splitOnP s field hf sep hm
  rw [beq_self_eq_true] at hno
  cases hno

theorem intercalate_cons_cons (sep : UInt8) (x y : Bytes) (ys : List Bytes) :
    [sep].intercalate (x :: y :: ys) = x ++ sep :: [sep].intercalate (y :: ys) := by
  simp [List.intercalate]

theorem lossy_intercalate {sep : UInt8} (hsep : sep < 128) : ∀ {fields : List Bytes},
    fields ≠ [] → lossy ([sep].intercalate fields) = [sep].intercalate (fields.map lossy)
  | [], h => absurd rfl h
  | [f], _ => by simp
  | f :: g :: fs, _ => by
    have ih := lossy_intercalate hsep (List.cons_ne_nil g fs)
    rw [intercalate_cons_cons, lossy_append_ascii hsep, ih]
    exact (intercalate_cons_cons sep (lossy f) (lossy g) (fs.map lossy)).symm

/-- The fields of a lossy text are the lossy texts of the fields. -/
theorem splitOn_lossy {sep : UInt8} (hsep : sep < 128) (s : Bytes) :
    (lossy s).splitOn sep = (s.splitOn sep).map lossy := by
  have hne : (s.splitOn sep).map lossy ≠ [] := by
    simp
  have hfields : ∀ f ∈ (s.splitOn sep).map lossy, sep ∉ f := by
    intro f hf
    obtain ⟨g, hg, rfl⟩ := List.mem_map.mp hf
    exact fun hm => notMem_of_mem_splitOn s g hg ((mem_lossy_ascii hsep).mp hm)
  have hjoin : [sep].intercalate (s.splitOn sep) = s := List.intercalate_splitOn sep
  conv_lhs => rw [← hjoin]
  rw [lossy_intercalate hsep (List.splitOn_ne_nil sep s)]
  exact List.splitOn_intercalate sep hfields hne

/-! ## Texts made of parts -/

/-- `String::from_utf8_lossy`, as a `String`. -/
def Text.ofLossy (s : Bytes) : Text := ⟨lossy s, validUtf8_lossy s⟩

/-- Texts joined by an ASCII byte are text. -/
theorem validUtf8_intercalate {sep : UInt8} (hsep : sep < 128) : ∀ parts : List Text,
    validUtf8 ([sep].intercalate (parts.map Text.bytes)) = true
  | [] => rfl
  | [p] => by
    simpa using p.valid
  | p :: q :: ps => by
    rw [List.map_cons, List.map_cons, intercalate_cons_cons]
    refine validUtf8_append p.valid ?_
    have hascii : validUtf8 [sep] = true := validUtf8_of_ascii fun b hb => by
      rwa [List.mem_singleton.mp hb]
    exact validUtf8_append hascii (validUtf8_intercalate hsep (q :: ps))

/-- `join("/")`. -/
def Text.join (parts : List Text) : Text :=
  ⟨[47].intercalate (parts.map Text.bytes), validUtf8_intercalate (by decide) parts⟩

/-- The lossy texts of some parts, joined, are the lossy text of the parts joined. -/
theorem Text.join_ofLossy {parts : List Bytes} (h : parts ≠ []) :
    (Text.join (parts.map Text.ofLossy)).bytes = lossy ([47].intercalate parts) := by
  have hbytes : (parts.map Text.ofLossy).map Text.bytes = parts.map lossy := List.map_map
  exact (congrArg ([47].intercalate ·) hbytes).trans (lossy_intercalate (by decide) h).symm

/-- The fields of what is joined are the fields of the parts. -/
theorem splitOn_intercalate_flatMap (sep : UInt8) : ∀ {parts : List Bytes}, parts ≠ [] →
    ([sep].intercalate parts).splitOn sep = parts.flatMap fun p => p.splitOn sep
  | [], h => absurd rfl h
  | [p], _ => by simp
  | p :: q :: ps, _ => by
    rw [intercalate_cons_cons, List.splitOn_append_cons_self,
      splitOn_intercalate_flatMap sep (List.cons_ne_nil q ps)]
    rfl

end Np2ptp.Lib
