import Mathlib.Data.Finmap
import Mathlib.Data.List.DropRight

/-!
# Append-only line logs

A log is a list of symbols read as lines, each closed by the separator `nl`; what follows the last
separator is a torn line. Appending whole lines to a log whose last line is closed adds those lines
and disturbs no other (`pieces_append`). A reader that keeps a cursor into the log and a map of the
entries before it stays correct while the log grows (`Follows`): it may move the cursor over a
closed stretch only, and only once the entries of that stretch are in its map.
-/

namespace Np2ptp.Lib

/-! ## Lines -/

section Lines

variable {α : Type*} {nl : α}

/-- The log is empty or ends with a separator. -/
def Terminated (nl : α) (s : List α) : Prop := ∀ a ∈ s.getLast?, a = nl

@[simp] theorem terminated_nil : Terminated nl [] := by simp [Terminated]

@[simp] theorem terminated_concat {s : List α} {a : α} : Terminated nl (s ++ [a]) ↔ a = nl := by
  simp [Terminated]

/-- A closed stretch is empty or has a last symbol, the separator. -/
theorem Terminated.eq_concat {s : List α} (h : Terminated nl s) (hs : s ≠ []) :
    ∃ t, s = t ++ [nl] := by
  obtain ⟨t, a, rfl⟩ := List.eq_nil_or_concat s |>.resolve_left hs
  rw [List.concat_eq_append] at h ⊢
  exact ⟨t, by rw [terminated_concat.mp h]⟩

/-- A log that ends with a closed stretch is closed, unless the stretch is empty. -/
theorem Terminated.append_of_ne_nil {s t : List α} (h : Terminated nl t) (ht : t ≠ []) :
    Terminated nl (s ++ t) := by
  obtain ⟨u, rfl⟩ := h.eq_concat ht
  rw [← List.append_assoc, terminated_concat]

/-- Closed stretches compose. -/
theorem Terminated.append {s t : List α} (hs : Terminated nl s) (ht : Terminated nl t) :
    Terminated nl (s ++ t) := by
  by_cases h : t = []
  · rwa [h, List.append_nil]
  · exact ht.append_of_ne_nil h

/-- The end of a closed log is closed. -/
theorem Terminated.of_append {s t : List α} (h : Terminated nl (s ++ t)) : Terminated nl t := by
  by_cases ht : t = []
  · rw [ht]; exact terminated_nil
  · obtain ⟨u, a, rfl⟩ := List.eq_nil_or_concat t |>.resolve_left ht
    rw [List.concat_eq_append, ← List.append_assoc, terminated_concat] at h
    rw [List.concat_eq_append, terminated_concat]
    exact h

variable [DecidableEq α]

instance (nl : α) (s : List α) : Decidable (Terminated nl s) :=
  inferInstanceAs (Decidable (∀ a ∈ s.getLast?, a = nl))

/-- The lines of a log, each with its separator; the last one may lack it. -/
def pieces (nl : α) : List α → List (List α)
  | [] => []
  | a :: t =>
    if a = nl then [a] :: pieces nl t
    else match pieces nl t with
      | [] => [[a]]
      | p :: ps => (a :: p) :: ps

/-- The log up to its last separator, that included. -/
def complete (nl : α) (s : List α) : List α := s.rdropWhile (· != nl)

/-- What follows the last separator. -/
def torn (nl : α) (s : List α) : List α := s.rtakeWhile (· != nl)

theorem complete_append_torn (s : List α) : complete nl s ++ torn nl s = s :=
  List.rdropWhile_append_rtakeWhile

theorem complete_terminated (s : List α) : Terminated nl (complete nl s) := by
  intro a ha
  have hne : complete nl s ≠ [] := by
    rintro h
    rw [h] at ha
    cases ha
  have hlast := List.rdropWhile_last_not (· != nl) s hne
  rw [List.getLast?_eq_some_getLast hne, Option.mem_some_iff] at ha
  simp only [bne_iff_ne, ne_eq, Decidable.not_not] at hlast
  exact ha.symm.trans hlast

/-- The torn line holds no separator. -/
theorem notMem_torn (s : List α) : nl ∉ torn nl s := by
  intro h
  simpa using List.mem_rtakeWhile_imp h

/-- Symbols other than the separator close no line. -/
theorem complete_append_of_notMem {s t : List α} (h : nl ∉ t) :
    complete nl (s ++ t) = complete nl s := by
  induction t using List.reverseRecOn with
  | nil => rw [List.append_nil]
  | append_singleton t a ih =>
    have ha : (a != nl) = true := by
      simp only [bne_iff_ne, ne_eq]
      rintro rfl
      exact h (by simp)
    rw [← List.append_assoc, complete, List.rdropWhile_concat_pos (fun x => x != nl) _ _ ha]
    exact ih fun hm => h (List.mem_append_left _ hm)

/-- A closed log has no torn line. -/
theorem Terminated.complete_eq {s : List α} (h : Terminated nl s) : complete nl s = s := by
  by_cases hs : s = []
  · rw [hs]; rfl
  · obtain ⟨t, rfl⟩ := h.eq_concat hs
    exact List.rdropWhile_concat_neg _ _ _ (by simp)

/-- Where a log is cut into a closed part and a part without separators, the first is its complete
part and the second its torn line. -/
theorem complete_of_append {s t : List α} (hs : Terminated nl s) (ht : nl ∉ t) :
    complete nl (s ++ t) = s := by
  rw [complete_append_of_notMem ht, hs.complete_eq]

/-- A log of whole lines stays whole in front of another log. -/
theorem complete_append_closed {s : List α} (hs : Terminated nl s) (t : List α) :
    complete nl (s ++ t) = s ++ complete nl t := by
  have hsplit : complete nl t ++ torn nl t = t := complete_append_torn t
  conv_lhs => rw [← hsplit, ← List.append_assoc]
  exact complete_of_append (hs.append (complete_terminated t)) (notMem_torn t)

/-- What is put at the end of a log goes on with its torn line. -/
theorem complete_append (s t : List α) :
    complete nl (s ++ t) = complete nl s ++ complete nl (torn nl s ++ t) := by
  rw [← complete_append_closed (complete_terminated s), ← List.append_assoc, complete_append_torn]

theorem pieces_cons_nl (t : List α) : pieces nl (nl :: t) = [nl] :: pieces nl t := by
  simp [pieces]

/-- The lines of a log are the log, cut up. -/
theorem flatten_pieces (s : List α) : (pieces nl s).flatten = s := by
  induction s with
  | nil => rfl
  | cons a t ih =>
    unfold pieces
    split
    · simp [ih]
    · cases hp : pieces nl t with
      | nil => simp [hp] at ih; simp [← ih]
      | cons p ps => rw [hp] at ih; simpa using ih

/-- Appending to a closed log adds lines: none of the log's own lines changes. -/
theorem pieces_append {s t : List α} (h : Terminated nl s) :
    pieces nl (s ++ t) = pieces nl s ++ pieces nl t := by
  induction s with
  | nil => rfl
  | cons a s ih =>
    by_cases hs : s = []
    · subst hs
      have ha : a = nl := terminated_concat (s := []).mp h
      subst ha
      simp [pieces]
    · have hrest : Terminated nl s := Terminated.of_append (s := [a]) h
      have hne : pieces nl s ≠ [] := by
        intro hp
        have hf : (pieces nl s).flatten = s := flatten_pieces s
        rw [hp] at hf
        exact hs hf.symm
      simp only [List.cons_append, pieces, ih hrest]
      split
      · rfl
      · cases hp : pieces nl s with
        | nil => exact absurd hp hne
        | cons p ps => rfl

/-- A line with its separator is one line. -/
theorem pieces_line {l : List α} (h : nl ∉ l) : pieces nl (l ++ [nl]) = [l ++ [nl]] := by
  induction l with
  | nil => simp [pieces]
  | cons a l ih =>
    have ha : a ≠ nl := fun e => h (by simp [e])
    simp [pieces, ha, ih fun hm => h (List.mem_cons_of_mem _ hm)]

/-- The closed lines of a log. -/
def closedLines (nl : α) (s : List α) : List (List α) := pieces nl (complete nl s)

/-- A closed line is some symbols other than the separator, and the separator. -/
theorem eq_concat_of_mem_pieces {s p : List α} (hs : Terminated nl s) (hp : p ∈ pieces nl s) :
    ∃ l, nl ∉ l ∧ p = l ++ [nl] := by
  induction s generalizing p with
  | nil => cases hp
  | cons a t ih =>
    by_cases ha : a = nl
    · subst ha
      rw [pieces_cons_nl, List.mem_cons] at hp
      rcases hp with rfl | hp
      · exact ⟨[], by simp, rfl⟩
      · exact ih (Terminated.of_append (s := [a]) hs) hp
    · have ht : Terminated nl t := Terminated.of_append (s := [a]) hs
      rw [pieces, if_neg ha] at hp
      cases hq : pieces nl t with
      | nil =>
        have hf : (pieces nl t).flatten = t := flatten_pieces t
        rw [hq] at hf
        rw [← hf] at hs
        exact absurd (terminated_concat (s := []).mp hs) ha
      | cons q qs =>
        rw [hq, List.mem_cons] at hp
        rcases hp with rfl | hp
        · obtain ⟨l, hl, rfl⟩ := ih ht (p := q) (by rw [hq]; exact List.mem_cons_self)
          exact ⟨a :: l, by simp [hl, Ne.symm ha], rfl⟩
        · exact ih ht (by rw [hq]; exact List.mem_cons_of_mem _ hp)

/-- The closed lines of a log stay closed lines of it whatever is appended. -/
theorem closedLines_append (s t : List α) :
    closedLines nl (s ++ t) = closedLines nl s ++ closedLines nl (torn nl s ++ t) := by
  rw [closedLines, complete_append, pieces_append (complete_terminated s)]
  rfl

/-- A line put at the end of a log is glued to the torn line before it. -/
theorem closedLines_append_line {s l : List α} (hl : nl ∉ l) :
    closedLines nl (s ++ (l ++ [nl])) = closedLines nl s ++ [torn nl s ++ l ++ [nl]] := by
  have hg : nl ∉ torn nl s ++ l := by simp [notMem_torn, hl]
  have hc : Terminated nl (torn nl s ++ l ++ [nl]) := terminated_concat.mpr rfl
  rw [closedLines_append, ← List.append_assoc]
  congr 1
  rw [closedLines, hc.complete_eq, pieces_line hg]

/-- Symbols other than the separator add no closed line. -/
theorem closedLines_append_of_notMem {s t : List α} (h : nl ∉ t) :
    closedLines nl (s ++ t) = closedLines nl s := by
  rw [closedLines, closedLines, complete_append_of_notMem h]

theorem Terminated.torn_eq {s : List α} (h : Terminated nl s) : torn nl s = [] := by
  have hs : complete nl s ++ torn nl s = s := complete_append_torn s
  rw [h.complete_eq] at hs
  simpa using hs

/-- The first closed line of a log, and the rest. -/
theorem closedLines_line_append {l t : List α} (h : nl ∉ l) :
    closedLines nl (l ++ nl :: t) = (l ++ [nl]) :: closedLines nl t := by
  have hc : Terminated nl (l ++ [nl]) := terminated_concat.mpr rfl
  have hone : closedLines nl (l ++ [nl]) = [l ++ [nl]] := by
    rw [closedLines, hc.complete_eq, pieces_line h]
  rw [show l ++ nl :: t = (l ++ [nl]) ++ t by simp, closedLines_append, hc.torn_eq, hone]
  rfl

/-- A closed line of a log that lost its first symbols ends as a line of the log does. -/
theorem closedLines_drop {s l : List α} {n : Nat} (h : l ∈ closedLines nl (s.drop n)) :
    ∃ l' ∈ closedLines nl s, l <:+ l' := by
  have hs : closedLines nl s = closedLines nl (s.take n) ++
      closedLines nl (torn nl (s.take n) ++ s.drop n) := by
    rw [← closedLines_append, List.take_append_drop]
  have hsuff : ∃ l' ∈ closedLines nl (torn nl (s.take n) ++ s.drop n), l <:+ l' := by
    by_cases hnl : nl ∈ s.drop n
    · obtain ⟨p, t, ht, hp⟩ := List.eq_append_cons_of_mem hnl
      rw [ht, closedLines_line_append hp, List.mem_cons] at h
      rw [ht, ← List.append_assoc, closedLines_line_append (by simp [notMem_torn, hp])]
      rcases h with rfl | h
      · exact ⟨_, List.mem_cons_self, by rw [List.append_assoc]; exact List.suffix_append _ _⟩
      · exact ⟨l, List.mem_cons_of_mem _ h, List.suffix_rfl⟩
    · rw [← List.nil_append (s.drop n), closedLines_append_of_notMem hnl] at h
      cases h
  obtain ⟨l', hl', hsuff⟩ := hsuff
  exact ⟨l', hs ▸ List.mem_append_right _ hl', hsuff⟩

end Lines

/-! ## Maps built from entries -/

section Entries

variable {κ ν : Type*} [DecidableEq κ]

/-- A finite map. -/
abbrev HashMap (κ ν : Type*) := Finmap fun _ : κ => ν

/-- Insert entries one after another: the last entry of a key wins. -/
def insertAll (m : HashMap κ ν) (es : List (κ × ν)) : HashMap κ ν :=
  es.foldl (fun m e => m.insert e.1 e.2) m

@[simp] theorem insertAll_nil (m : HashMap κ ν) : insertAll m [] = m := rfl

@[simp] theorem insertAll_append (m : HashMap κ ν) (es fs : List (κ × ν)) :
    insertAll m (es ++ fs) = insertAll (insertAll m es) fs :=
  List.foldl_append

/-- One more entry is one more insertion. -/
theorem insertAll_concat (m : HashMap κ ν) (es : List (κ × ν)) (e : κ × ν) :
    insertAll m (es ++ [e]) = (insertAll m es).insert e.1 e.2 := by
  rw [insertAll_append]
  rfl

/-- The keys are the old ones and those of the entries. -/
theorem mem_insertAll {m : HashMap κ ν} {es : List (κ × ν)} {k : κ} :
    k ∈ insertAll m es ↔ k ∈ m ∨ ∃ v, (k, v) ∈ es := by
  induction es using List.reverseRecOn with
  | nil => simp
  | append_singleton es e ih =>
    rw [insertAll_concat, Finmap.mem_insert, ih]
    obtain ⟨k', v'⟩ := e
    constructor
    · rintro (rfl | h | ⟨v, h⟩)
      · exact .inr ⟨v', by simp⟩
      · exact .inl h
      · exact .inr ⟨v, List.mem_append_left _ h⟩
    · rintro (h | ⟨v, h⟩)
      · exact .inr (.inl h)
      · rcases List.mem_append.mp h with h | h
        · exact .inr (.inr ⟨v, h⟩)
        · cases List.mem_singleton.mp h
          exact .inl rfl

/-- A value that is looked up was there before or is that of an entry. -/
theorem lookup_insertAll {m : HashMap κ ν} {es : List (κ × ν)} {k : κ} {v : ν}
    (h : (insertAll m es).lookup k = some v) : m.lookup k = some v ∨ (k, v) ∈ es := by
  induction es using List.reverseRecOn with
  | nil => exact .inl h
  | append_singleton es e ih =>
    rw [insertAll_concat] at h
    by_cases hk : k = e.1
    · subst hk
      rw [Finmap.lookup_insert, Option.some.injEq] at h
      subst h
      exact .inr (by simp)
    · rw [Finmap.lookup_insert_of_ne _ hk] at h
      exact (ih h).imp_right (List.mem_append_left _)

/-- A key has the value of its last entry, or the one it had before. -/
theorem lookup_insertAll_or {m : HashMap κ ν} {es : List (κ × ν)} {k : κ} :
    (insertAll m es).lookup k = ((insertAll ∅ es).lookup k).or (m.lookup k) := by
  induction es using List.reverseRecOn with
  | nil => simp
  | append_singleton es e ih =>
    rw [insertAll_concat, insertAll_concat]
    by_cases hk : k = e.1
    · subst hk
      rw [Finmap.lookup_insert, Finmap.lookup_insert]
      rfl
    · rw [Finmap.lookup_insert_of_ne _ hk, Finmap.lookup_insert_of_ne _ hk, ih]

/-- A key that was not there before has the value of its last entry. -/
theorem lookup_insertAll_of_notMem {m : HashMap κ ν} {es : List (κ × ν)} {k : κ} (h : k ∉ m) :
    (insertAll m es).lookup k = (insertAll ∅ es).lookup k := by
  rw [lookup_insertAll_or, Finmap.lookup_eq_none.mpr h, Option.or_none]

end Entries

/-! ## Readers that follow a log -/

section Follow

variable {α κ ν : Type*} [DecidableEq α] {nl : α}
  {parse : List α → Option (κ × ν)}

/-- The entries of a log: its lines, those that do not parse left out. -/
def entries (nl : α) (parse : List α → Option (κ × ν)) (s : List α) : List (κ × ν) :=
  (pieces nl s).filterMap parse

theorem entries_append {s t : List α} (h : Terminated nl s) :
    entries nl parse (s ++ t) = entries nl parse s ++ entries nl parse t := by
  rw [entries, pieces_append h, List.filterMap_append]
  rfl

/-- A line with its separator has at most the one entry it parses to. -/
theorem entries_line {l : List α} (h : nl ∉ l) :
    entries nl parse (l ++ [nl]) = (parse (l ++ [nl])).toList := by
  rw [entries, pieces_line h]
  cases hp : parse (l ++ [nl]) with
  | none => simp [hp]
  | some e => simp [hp]

/-- A reader with its cursor at `pos` that knows the keys `known` has seen everything before its
cursor, and the cursor stands between two lines. -/
structure Follows (nl : α) (parse : List α → Option (κ × ν)) (log : List α) (pos : Nat)
    (known : κ → Prop) : Prop where
  le : pos ≤ log.length
  boundary : Terminated nl (log.take pos)
  seen : ∀ e ∈ entries nl parse (log.take pos), known e.1

variable {log : List α} {pos : Nat} {known K : κ → Prop}

/-- The log may grow. -/
theorem Follows.append {t : List α} (h : Follows nl parse log pos known) :
    Follows nl parse (log ++ t) pos known := by
  have htake : (log ++ t).take pos = log.take pos := List.take_append_of_le_length h.le
  exact ⟨by simp only [List.length_append]; have := h.le; omega, htake ▸ h.boundary,
    htake ▸ h.seen⟩

/-- The reader may learn more keys. -/
theorem Follows.mono (hk : ∀ k, known k → K k) (h : Follows nl parse log pos known) :
    Follows nl parse log pos K :=
  ⟨h.le, h.boundary, fun e he => hk _ (h.seen e he)⟩

/-- The cursor rule: the cursor may move over the closed stretch that starts at it, once the
entries of that stretch are known. -/
theorem Follows.advance {t : List α} (h : Follows nl parse log pos known)
    (ht : t <+: log.drop pos) (hclosed : Terminated nl t)
    (hnew : ∀ e ∈ entries nl parse t, known e.1) :
    Follows nl parse log (pos + t.length) known := by
  obtain ⟨u, hu⟩ := ht
  have hlog : log = log.take pos ++ t ++ u := by
    rw [List.append_assoc, hu, List.take_append_drop]
  have hlen : (log.take pos ++ t).length = pos + t.length := by
    rw [List.length_append, List.length_take_of_le h.le]
  have htake : log.take (pos + t.length) = log.take pos ++ t := by
    conv_lhs => rw [hlog]
    rw [← hlen, List.take_left]
  refine ⟨?_, htake ▸ h.boundary.append hclosed, ?_⟩
  · rw [← hlen]
    conv_rhs => rw [hlog]
    simp
  · rw [htake, entries_append h.boundary]
    intro e he
    rcases List.mem_append.mp he with he | he
    · exact h.seen e he
    · exact hnew e he

/-- What a reader has seen and what its cursor has not passed are all of the log. -/
theorem Follows.entries_eq (h : Follows nl parse log pos known) :
    entries nl parse log = entries nl parse (log.take pos) ++ entries nl parse (log.drop pos) := by
  rw [← entries_append h.boundary, List.take_append_drop]

end Follow

end Np2ptp.Lib
