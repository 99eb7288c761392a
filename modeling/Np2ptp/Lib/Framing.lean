import Mathlib.Data.List.Basic

/-!
# Self-delimiting readers

A reader takes a value off the front of its input and returns the rest. It is self-delimiting when
what it took decides the value: the same bytes before any other rest give the same value and leave
that rest. The property is kept by reading one thing after another and by reading up to a
terminator (`readUntil`), whose fuel is never used up as every turn takes something.
-/

namespace Np2ptp.Lib

variable {ε α β γ σ : Type*}

/-- What a reader takes is not nothing, and says by itself where it ends. -/
def SelfDelimiting (read : List β → Except ε (α × List β)) : Prop :=
  ∀ input a rest, read input = .ok (a, rest) → ∃ used, used ≠ [] ∧ input = used ++ rest ∧
    ∀ tail, read (used ++ tail) = .ok (a, tail)

/-- A reader of something that is then mapped. -/
def readMap (f : α → γ) (read : List β → Except ε (α × List β)) (input : List β) :
    Except ε (γ × List β) :=
  (read input).map fun r => (f r.1, r.2)

/-- One reader after another. -/
def readThen (read : List β → Except ε (α × List β)) (next : α → List β → Except ε (γ × List β))
    (input : List β) : Except ε (γ × List β) :=
  (read input).bind fun r => next r.1 r.2

/-- A reader makes progress. -/
theorem SelfDelimiting.length_lt {read : List β → Except ε (α × List β)} (h : SelfDelimiting read)
    {input rest : List β} {a : α} (hread : read input = .ok (a, rest)) :
    rest.length < input.length := by
  obtain ⟨used, hne, rfl, -⟩ := h input a rest hread
  rw [List.length_append]
  have := List.length_pos_iff.mpr hne
  omega

theorem SelfDelimiting.readMap {read : List β → Except ε (α × List β)} (h : SelfDelimiting read)
    (f : α → γ) : SelfDelimiting (readMap f read) := by
  intro input c rest hread
  unfold Lib.readMap at hread ⊢
  cases hr : read input with
  | error e =>
    rw [hr] at hread
    cases hread
  | ok r =>
    rw [hr] at hread
    cases hread
    obtain ⟨used, hne, hinput, htail⟩ := h input r.1 r.2 hr
    refine ⟨used, hne, hinput, fun tail => ?_⟩
    rw [htail tail]
    rfl

theorem SelfDelimiting.readThen {read : List β → Except ε (α × List β)}
    {next : α → List β → Except ε (γ × List β)} (h : SelfDelimiting read)
    (hnext : ∀ a, SelfDelimiting (next a)) : SelfDelimiting (readThen read next) := by
  intro input c rest hread
  unfold Lib.readThen at hread ⊢
  cases hr : read input with
  | error e =>
    rw [hr] at hread
    cases hread
  | ok r =>
    rw [hr] at hread
    obtain ⟨used, hne, rfl, htail⟩ := h input r.1 r.2 hr
    obtain ⟨more, -, hrest, htail'⟩ := hnext r.1 r.2 c rest hread
    refine ⟨used ++ more, List.append_ne_nil_of_left_ne_nil hne more, ?_, fun tail => ?_⟩
    · rw [hrest, List.append_assoc]
    · rw [List.append_assoc, htail (more ++ tail)]
      exact htail' tail

/-- What one reader reads, the other reads as well. -/
def ReadsMore (read read' : List β → Except ε (α × List β)) : Prop :=
  ∀ input r, read input = .ok r → read' input = .ok r

theorem ReadsMore.readMap {read read' : List β → Except ε (α × List β)} (h : ReadsMore read read')
    (f : α → γ) : ReadsMore (readMap f read) (Lib.readMap f read') := by
  intro input c hread
  unfold Lib.readMap at hread ⊢
  cases hr : read input with
  | error e =>
    rw [hr] at hread
    cases hread
  | ok r =>
    rw [hr] at hread
    rw [h input r hr]
    exact hread

theorem ReadsMore.readThen {read : List β → Except ε (α × List β)}
    {next next' : α → List β → Except ε (γ × List β)} (h : ∀ a, ReadsMore (next a) (next' a)) :
    ReadsMore (readThen read next) (Lib.readThen read next') := by
  intro input c hread
  unfold Lib.readThen at hread ⊢
  cases hr : read input with
  | error e =>
    rw [hr] at hread
    cases hread
  | ok r =>
    rw [hr] at hread
    exact h r.1 r.2 c hread

/-- A reader that never reads anything. -/
theorem selfDelimiting_error (e : ε) :
    SelfDelimiting fun _ : List β => (.error e : Except ε (α × List β)) := by
  intro input a rest h
  cases h

/-- The first element chooses the reader. -/
theorem SelfDelimiting.of_first {read : List β → Except ε (α × List β)}
    (hnil : ∀ r, read [] ≠ .ok r) (hcons : ∀ b, ∃ kind, SelfDelimiting kind ∧
      ∀ t, read (b :: t) = kind (b :: t)) : SelfDelimiting read := by
  intro input a rest h
  cases input with
  | nil => exact absurd h (hnil (a, rest))
  | cons b t =>
    obtain ⟨kind, hkind, hread⟩ := hcons b
    rw [hread] at h
    obtain ⟨used, hne, hinput, htail⟩ := hkind (b :: t) a rest h
    cases used with
    | nil => exact absurd rfl hne
    | cons c used =>
      cases hinput
      exact ⟨b :: used, hne, rfl, fun tail => (hread (used ++ tail)).trans (htail tail)⟩

/-- Pieces that are not empty take as much as there are of them. -/
theorem length_le_flatMap {write : α → List β} {xs : List α} (h : ∀ x ∈ xs, write x ≠ []) :
    xs.length ≤ (xs.flatMap write).length := by
  induction xs with
  | nil => exact Nat.zero_le _
  | cons x xs ih =>
    have hrest := ih fun y hy => h y (List.mem_cons_of_mem x hy)
    have hpos := List.length_pos_iff.mpr (h x List.mem_cons_self)
    rw [List.flatMap_cons, List.length_append, List.length_cons]
    omega

/-! ## Up to a terminator -/

variable [DecidableEq β]

/-- Steps are read up to a terminator, in a number of turns at most. -/
def readUntil (stop : β) (unterminated : ε) (step : σ → List β → Except ε (σ × List β)) :
    Nat → List β → σ → Except ε (σ × List β)
  | 0, _, _ => .error unterminated
  | _ + 1, [], _ => .error unterminated
  | fuel + 1, b :: t, acc =>
    if b = stop then .ok (acc, t)
    else (step acc (b :: t)).bind fun r => readUntil stop unterminated step fuel r.2 r.1

variable {stop : β} {unterminated : ε} {step : σ → List β → Except ε (σ × List β)}

/-- The loop is self-delimiting, and no turns but those that the bytes allow are needed. -/
theorem readUntil_ok (hstep : ∀ acc, SelfDelimiting (step acc)) {fuel : Nat}
    {input rest : List β} {acc a : σ}
    (h : readUntil stop unterminated step fuel input acc = .ok (a, rest)) :
    ∃ used, used ≠ [] ∧ input = used ++ rest ∧ ∀ tail fuel', (used ++ tail).length < fuel' →
      readUntil stop unterminated step fuel' (used ++ tail) acc = .ok (a, tail) := by
  induction fuel generalizing input acc with
  | zero => cases h
  | succ fuel ih =>
    cases input with
    | nil => cases h
    | cons b t =>
      rw [readUntil] at h
      by_cases hb : b = stop
      · rw [if_pos hb] at h
        cases h
        refine ⟨[b], List.cons_ne_nil b [], rfl, fun tail fuel' hfuel => ?_⟩
        obtain ⟨k, rfl⟩ := Nat.exists_eq_succ_of_ne_zero (Nat.ne_zero_of_lt hfuel)
        exact if_pos hb
      · rw [if_neg hb] at h
        cases hr : step acc (b :: t) with
        | error e =>
          rw [hr] at h
          cases h
        | ok r =>
          rw [hr] at h
          obtain ⟨used, hne, hinput, htail⟩ := hstep acc (b :: t) r.1 r.2 hr
          obtain ⟨more, hmore, hrest, hloop⟩ := ih h
          obtain ⟨used, rfl⟩ : ∃ u, used = b :: u := by
            cases used with
            | nil => exact absurd rfl hne
            | cons c u =>
              cases hinput
              exact ⟨u, rfl⟩
          refine ⟨b :: used ++ more, List.cons_ne_nil b _, ?_, fun tail fuel' hfuel => ?_⟩
          · rw [hinput, hrest, List.append_assoc]
          · obtain ⟨k, rfl⟩ := Nat.exists_eq_succ_of_ne_zero (Nat.ne_zero_of_lt hfuel)
            have hread := htail (more ++ tail)
            rw [List.append_assoc, List.cons_append] at hfuel ⊢
            rw [List.cons_append] at hread
            rw [readUntil, if_neg hb, hread]
            refine hloop tail k ?_
            rw [List.length_cons, List.length_append] at hfuel
            omega

/-- Turns that read more make a loop that reads more. -/
theorem ReadsMore.readUntil {step' : σ → List β → Except ε (σ × List β)}
    (h : ∀ acc, ReadsMore (step acc) (step' acc)) (fuel : Nat) (acc : σ) :
    ReadsMore (fun input => Lib.readUntil stop unterminated step fuel input acc)
      fun input => Lib.readUntil stop unterminated step' fuel input acc := by
  intro input a hread
  induction fuel generalizing input acc with
  | zero => cases hread
  | succ fuel ih =>
    cases input with
    | nil => cases hread
    | cons b t =>
      dsimp only at hread ⊢
      rw [Lib.readUntil] at hread ⊢
      by_cases hb : b = stop
      · rw [if_pos hb] at hread ⊢
        exact hread
      · rw [if_neg hb] at hread ⊢
        cases hr : step acc (b :: t) with
        | error e =>
          rw [hr] at hread
          cases hread
        | ok r =>
          rw [hr] at hread
          rw [h acc (b :: t) r hr]
          exact ih r.1 r.2 hread

/-- The loop with turns enough for its input. -/
theorem SelfDelimiting.readUntil (hstep : ∀ acc, SelfDelimiting (step acc)) (acc : σ) :
    SelfDelimiting fun input =>
      readUntil stop unterminated step (input.length + 1) input acc := by
  intro input a rest h
  obtain ⟨used, hne, hinput, htail⟩ := readUntil_ok hstep h
  exact ⟨used, hne, hinput, fun tail => htail tail _ (Nat.lt_succ_self _)⟩

/-- What is written is read back: pieces that a step reads and that do not begin with the
terminator. -/
theorem readUntil_flatMap {step : List α → List β → Except ε (List α × List β)}
    {write : α → List β} {xs : List α} (hstep : ∀ x ∈ xs, ∀ acc tail,
      step acc (write x ++ tail) = .ok (acc ++ [x], tail))
    (hhead : ∀ x ∈ xs, ∃ b t, write x = b :: t ∧ b ≠ stop) (acc : List α) (tail : List β) :
    Lib.readUntil stop unterminated step ((xs.flatMap write ++ stop :: tail).length + 1)
      (xs.flatMap write ++ stop :: tail) acc = .ok (acc ++ xs, tail) := by
  have hlength : xs.length < (xs.flatMap write ++ stop :: tail).length + 1 := by
    have hle : xs.length ≤ (xs.flatMap write).length := length_le_flatMap fun x hx => by
      obtain ⟨b, t, hwrite, -⟩ := hhead x hx
      rw [hwrite]
      exact List.cons_ne_nil b t
    rw [List.length_append]
    omega
  -- any number of turns that is enough will do
  generalize (xs.flatMap write ++ stop :: tail).length + 1 = fuel at hlength ⊢
  induction xs generalizing acc fuel with
  | nil =>
    obtain ⟨k, rfl⟩ := Nat.exists_eq_succ_of_ne_zero (Nat.ne_zero_of_lt hlength)
    rw [List.flatMap_nil, List.nil_append, Lib.readUntil, if_pos rfl, List.append_nil]
  | cons x xs ih =>
    obtain ⟨k, rfl⟩ := Nat.exists_eq_succ_of_ne_zero (Nat.ne_zero_of_lt hlength)
    obtain ⟨b, t, hwrite, hb⟩ := hhead x List.mem_cons_self
    have hread := hstep x List.mem_cons_self acc (xs.flatMap write ++ stop :: tail)
    rw [hwrite, List.cons_append] at hread
    rw [List.flatMap_cons, List.append_assoc, hwrite, List.cons_append, Lib.readUntil, if_neg hb,
      hread]
    have hrest := ih (fun y hy => hstep y (List.mem_cons_of_mem x hy))
      (fun y hy => hhead y (List.mem_cons_of_mem x hy)) (acc ++ [x]) k
      (Nat.lt_of_succ_lt_succ hlength)
    rw [List.append_assoc] at hrest
    exact hrest

end Np2ptp.Lib
