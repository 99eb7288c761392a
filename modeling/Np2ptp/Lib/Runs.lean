import Mathlib.Init

/-!
# Runs of a partial step function

A system is a step function `σ → α → Option σ`: an action either has a successor state or is not
enabled. A run is a list of actions. Everything proved about runs comes from one rule,
`runs_invariant`: a property that holds at the start and that every step keeps holds at the end.
The rule carries a side condition on the steps (`Along`), so that a result about the runs that
stay clear of some behaviour is stated over the actions themselves.
-/

namespace Np2ptp.Lib

variable {σ α : Type*}

/-- The state after a list of actions, `none` when one of them is not enabled. -/
def runs (step : σ → α → Option σ) : σ → List α → Option σ
  | s, [] => some s
  | s, a :: as => (step s a).bind fun s' => runs step s' as

/-- Every action of the run meets `ok` in the state it is taken from. -/
def Along (step : σ → α → Option σ) (ok : σ → α → Prop) : σ → List α → Prop
  | _, [] => True
  | s, a :: as => ok s a ∧ ∀ s', step s a = some s' → Along step ok s' as

variable {step : σ → α → Option σ} {ok : σ → α → Prop} {s s' : σ}

@[simp] theorem runs_nil : runs step s [] = some s := rfl

/-- A run of one more action is a step and then a run. -/
theorem runs_cons {a : α} {as : List α} :
    runs step s (a :: as) = some s' ↔ ∃ t, step s a = some t ∧ runs step t as = some s' :=
  Option.bind_eq_some_iff

/-- A run of two parts. -/
theorem runs_append {as bs : List α} : runs step s (as ++ bs) = some s' ↔
    ∃ t, runs step s as = some t ∧ runs step t bs = some s' := by
  induction as generalizing s with
  | nil => simp
  | cons a as ih =>
    rw [List.cons_append, runs_cons]
    constructor
    · rintro ⟨t, ht, hr⟩
      obtain ⟨u, hu, hr⟩ := ih.mp hr
      exact ⟨u, runs_cons.mpr ⟨t, ht, hu⟩, hr⟩
    · rintro ⟨u, hu, hr⟩
      obtain ⟨t, ht, hu⟩ := runs_cons.mp hu
      exact ⟨t, ht, ih.mpr ⟨u, hu, hr⟩⟩

/-- A condition met along a run is met along its second part. -/
theorem Along.of_append {as bs : List α} {t : σ} (h : Along step ok s (as ++ bs))
    (hr : runs step s as = some t) : Along step ok t bs := by
  induction as generalizing s with
  | nil =>
    cases hr
    exact h
  | cons a as ih =>
    obtain ⟨u, hu, hr⟩ := runs_cons.mp hr
    exact ih (h.2 u hu) hr

/-- A condition met along a run is met along its first part. -/
theorem Along.left {as bs : List α} (h : Along step ok s (as ++ bs)) : Along step ok s as := by
  induction as generalizing s with
  | nil => trivial
  | cons a as ih => exact ⟨h.1, fun s' hs => ih (h.2 s' hs)⟩

instance Along.decidable [∀ s a, Decidable (ok s a)] :
    ∀ (s : σ) (as : List α), Decidable (Along step ok s as)
  | _, [] => .isTrue trivial
  | s, a :: as =>
    match h : step s a with
    | none => decidable_of_iff (ok s a)
        ⟨fun ho => ⟨ho, fun s' hs => by rw [h] at hs; cases hs⟩, And.left⟩
    | some t =>
      have := Along.decidable t as
      decidable_of_iff (ok s a ∧ Along step ok t as)
        ⟨fun ho => ⟨ho.1, fun s' hs => by rw [h] at hs; cases hs; exact ho.2⟩,
          fun ho => ⟨ho.1, ho.2 t h⟩⟩

/-- A condition that every action meets everywhere is met along every run. -/
theorem along_of_forall (h : ∀ s a, ok s a) : ∀ (s : σ) (as : List α), Along step ok s as
  | _, [] => trivial
  | s, a :: as => ⟨h s a, fun s' _ => along_of_forall h s' as⟩

/-- A condition on the actions alone is met along a run when each of its actions meets it. -/
theorem along_of_mem {P : α → Prop} : ∀ (s : σ) {as : List α}, (∀ a ∈ as, P a) →
    Along step (fun _ a => P a) s as
  | _, [], _ => trivial
  | _, _ :: _, h => ⟨h _ List.mem_cons_self, fun s' _ =>
      along_of_mem s' fun a ha => h a (List.mem_cons_of_mem _ ha)⟩

/-- A stronger condition on the steps is met along the same runs. -/
theorem Along.mono {ok' : σ → α → Prop} (h : ∀ s a, ok s a → ok' s a) :
    ∀ {s : σ} {as : List α}, Along step ok s as → Along step ok' s as
  | _, [], _ => trivial
  | _, _ :: _, ha => ⟨h _ _ ha.1, fun s' hs => (ha.2 s' hs).mono h⟩

/-- Two conditions on the steps met along a run are one. -/
theorem Along.and {ok' : σ → α → Prop} : ∀ {s : σ} {as : List α},
    Along step ok s as → Along step ok' s as → Along step (fun s a => ok s a ∧ ok' s a) s as
  | _, [], _, _ => trivial
  | _, _ :: _, h, h' => ⟨⟨h.1, h'.1⟩, fun s' hs => (h.2 s' hs).and (h'.2 s' hs)⟩

/-- A run that does not meet the condition takes a step that does not. -/
theorem exists_of_not_along : ∀ {as : List α} {s : σ}, ¬ Along step ok s as →
    runs step s as = some s' → ∃ pre a post t t', as = pre ++ a :: post ∧
      runs step s pre = some t ∧ step t a = some t' ∧ ¬ ok t a ∧ runs step t' post = some s'
  | [], _, h, _ => absurd trivial h
  | a :: as, s, h, hr => by
    obtain ⟨t, ht, hrest⟩ := runs_cons.mp hr
    by_cases hok : ok s a
    · have htail : ¬ Along step ok t as := fun htail => h ⟨hok, fun u hu => by
        rw [ht] at hu
        cases hu
        exact htail⟩
      obtain ⟨pre, b, post, u, u', rfl, hpre, hstep, hno, hpost⟩ := exists_of_not_along htail hrest
      exact ⟨a :: pre, b, post, u, u', rfl, runs_cons.mpr ⟨t, ht, hpre⟩, hstep, hno, hpost⟩
    · exact ⟨[], a, as, s, t, rfl, rfl, ht, hok, hrest⟩

/-- The rule: what every step keeps under the condition, every run that meets the condition
keeps. -/
theorem runs_invariant {I : σ → Prop}
    (keeps : ∀ s a s', I s → ok s a → step s a = some s' → I s') :
    ∀ {as : List α} {s s' : σ}, I s → Along step ok s as → runs step s as = some s' → I s'
  | [], _, _, hI, _, hr => by cases hr; exact hI
  | a :: _, s, _, hI, hok, hr => by
    obtain ⟨t, ht, hrest⟩ := runs_cons.mp hr
    exact runs_invariant keeps (keeps s a t hI hok.1 ht) (hok.2 t ht) hrest

/-- What the rule says of the end of a run holds before each of its steps as well. -/
theorem Along.invariant {I : σ → Prop}
    (keeps : ∀ s a s', I s → ok s a → step s a = some s' → I s') :
    ∀ {s : σ} {as : List α}, I s → Along step ok s as → Along step (fun s a => I s ∧ ok s a) s as
  | _, [], _, _ => trivial
  | s, a :: _, hI, h =>
    ⟨⟨hI, h.1⟩, fun s' hs => Along.invariant keeps (keeps s a s' hI h.1 hs) (h.2 s' hs)⟩

/-- Two conditions on the steps that come to the same under an invariant which the second keeps are
met along the same runs. -/
theorem along_iff {ok' : σ → α → Prop} {I : σ → Prop}
    (agree : ∀ s a s', I s → step s a = some s' → (ok s a ↔ ok' s a))
    (keeps : ∀ s a s', I s → ok' s a → step s a = some s' → I s') :
    ∀ {as : List α} {s s' : σ}, I s → runs step s as = some s' →
      (Along step ok s as ↔ Along step ok' s as)
  | [], _, _, _, _ => Iff.rfl
  | a :: as, s, s', hI, hr => by
    obtain ⟨t, ht, hrest⟩ := runs_cons.mp hr
    have htail (h : ok' s a) : (∀ u, step s a = some u → Along step ok u as) ↔
        ∀ u, step s a = some u → Along step ok' u as := by
      have hiff := along_iff agree keeps (keeps s a t hI h ht) hrest
      rw [ht]
      exact ⟨fun hall u hu => Option.some.inj hu ▸ hiff.mp (hall t rfl),
        fun hall u hu => Option.some.inj hu ▸ hiff.mpr (hall t rfl)⟩
    rw [Along, Along, agree s a t hI ht]
    exact and_congr_right htail

/-- The rule without a condition on the steps. -/
theorem runs_invariant' {I : σ → Prop} (keeps : ∀ s a s', I s → step s a = some s' → I s')
    {as : List α} (hI : I s) (hr : runs step s as = some s') : I s' :=
  runs_invariant (fun s a s' hI (_ : True) => keeps s a s' hI) hI
    (along_of_forall (fun _ _ => trivial) s as) hr

/-- Where every step that does not meet a condition breaks a property, a run throughout which the
property holds meets the condition. The invariant is what the steps that meet it keep. -/
theorem along_of_forall_prefix {I P : σ → Prop}
    (keeps : ∀ s a s', I s → ok s a → step s a = some s' → I s')
    (breaks : ∀ s a s', I s → ¬ ok s a → step s a = some s' → ¬ P s') :
    ∀ {as : List α} {s s' : σ}, I s → runs step s as = some s' →
      (∀ pre post t, as = pre ++ post → runs step s pre = some t → P t) → Along step ok s as
  | [], _, _, _, _, _ => trivial
  | a :: as, s, s', hI, hr, h => by
    obtain ⟨t, ht, hrest⟩ := runs_cons.mp hr
    have hfirst : P t := h [a] as t rfl (runs_cons.mpr ⟨t, ht, rfl⟩)
    have hok : ok s a := Classical.byContradiction fun hno => breaks s a t hI hno ht hfirst
    refine ⟨hok, fun u hu => ?_⟩
    obtain rfl : t = u := Option.some.inj (ht.symm.trans hu)
    refine along_of_forall_prefix keeps breaks (keeps s a t hI hok ht) hrest ?_
    rintro pre post u rfl hpre
    exact h (a :: pre) post u rfl (runs_cons.mpr ⟨t, ht, hpre⟩)

/-- The exact condition: where every step that meets it keeps a property, and every step that does
not meet it breaks the property, the property holds throughout a run if and only if all its steps
meet the condition. -/
theorem forall_prefix_iff_along {I : σ → Prop}
    (keeps : ∀ s a s', I s → ok s a → step s a = some s' → I s')
    (breaks : ∀ s a s', I s → ¬ ok s a → step s a = some s' → ¬ I s')
    {as : List α} {s s' : σ} (hI : I s) (hr : runs step s as = some s') :
    (∀ pre post t, as = pre ++ post → runs step s pre = some t → I t) ↔ Along step ok s as := by
  constructor
  · exact along_of_forall_prefix keeps breaks hI hr
  · rintro h pre post t rfl hpre
    exact runs_invariant keeps hI h.left hpre

/-! ## What a run adds up to -/

/-- What the actions of a run amount to, each taken in the state it is taken from. -/
def total (step : σ → α → Option σ) (amount : σ → α → Nat) : σ → List α → Nat
  | _, [] => 0
  | s, a :: as => amount s a + match step s a with
    | none => 0
    | some s' => total step amount s' as

/-- The counting rule: a counter to which every step adds its amount, up to a ceiling, ends at
where it started plus what the run amounts to, up to the ceiling. -/
theorem runs_total (counter : σ → Nat) {amount : σ → α → Nat} {ceiling : Nat}
    (adds : ∀ s a s', step s a = some s' → counter s' = min (counter s + amount s a) ceiling) :
    ∀ {as : List α} {s s' : σ}, counter s ≤ ceiling → runs step s as = some s' →
      counter s' = min (counter s + total step amount s as) ceiling
  | [], _, _, hle, hr => by
    cases hr
    rw [total, Nat.add_zero, Nat.min_eq_left hle]
  | a :: as, s, s', _, hr => by
    obtain ⟨t, ht, hrest⟩ := runs_cons.mp hr
    have hstep := adds s a t ht
    have hrun := runs_total counter adds (by omega) hrest
    rw [total, ht]
    dsimp only
    omega

/-- The balance rule: a level from which every step takes one amount and to which it adds another
ends at where it started, less the one total and plus the other. -/
theorem runs_balance (level : σ → Nat) {loss gain : σ → α → Nat}
    (balances : ∀ s a s', step s a = some s' → level s' + loss s a = level s + gain s a) :
    ∀ {as : List α} {s s' : σ}, runs step s as = some s' →
      level s' + total step loss s as = level s + total step gain s as
  | [], _, _, hr => by
    cases hr
    rfl
  | a :: as, s, s', hr => by
    obtain ⟨t, ht, hrest⟩ := runs_cons.mp hr
    have hstep := balances s a t ht
    have hrun := runs_balance level balances hrest
    rw [total, total, ht]
    dsimp only
    omega

/-- An amount in two parts. -/
theorem total_add (f g : σ → α → Nat) : ∀ (as : List α) (s : σ),
    total step (fun s a => f s a + g s a) s as = total step f s as + total step g s as
  | [], _ => rfl
  | a :: as, s => by
    rw [total, total, total]
    cases step s a with
    | none => rfl
    | some t =>
      dsimp only
      rw [total_add f g as t]
      omega

/-- A run that amounts to nothing is one whose actions all do. -/
theorem total_eq_zero_iff {amount : σ → α → Nat} : ∀ {as : List α} {s : σ},
    total step amount s as = 0 ↔ Along step (fun s a => amount s a = 0) s as
  | [], _ => ⟨fun _ => trivial, fun _ => rfl⟩
  | a :: as, s => by
    rw [total, Nat.add_eq_zero_iff, Along]
    refine and_congr_right fun _ => ?_
    cases step s a with
    | none => exact ⟨fun _ _ h => (by cases h), fun _ => rfl⟩
    | some t =>
      dsimp only
      rw [total_eq_zero_iff]
      exact ⟨fun h _ ht => Option.some.inj ht ▸ h, fun h => h t rfl⟩

/-! ## What a run gathers -/

/-- What the actions of a run give, each taken in the state it is taken from. -/
def gathered {β : Type*} (step : σ → α → Option σ) (give : σ → α → Option β) : σ → List α → List β
  | _, [] => []
  | s, a :: as => (give s a).toList ++ match step s a with
    | none => []
    | some s' => gathered step give s' as

/-- A property of all that a run gives is one of what each of its actions gives. -/
theorem forall_gathered_iff {β : Type*} {give : σ → α → Option β} {P : β → Prop} :
    ∀ {as : List α} {s : σ}, (∀ b ∈ gathered step give s as, P b) ↔
      Along step (fun s a => ∀ b, give s a = some b → P b) s as
  | [], _ => ⟨fun _ => trivial, fun _ _ h => nomatch h⟩
  | a :: as, s => by
    rw [gathered, List.forall_mem_append, Along]
    refine and_congr ?_ ?_
    · cases give s a with
      | none => simp
      | some b => simp
    · cases step s a with
      | none => simp
      | some t => simp [forall_gathered_iff]

/-- A rule for what a run gathers: an invariant of the state and of what was gathered so far. -/
theorem runs_gathered {β : Type*} {give : σ → α → Option β} {I : σ → List β → Prop}
    (keeps : ∀ s a s' bs, I s bs → ok s a → step s a = some s' → I s' (bs ++ (give s a).toList)) :
    ∀ {as : List α} {s s' : σ} {bs : List β}, I s bs → Along step ok s as →
      runs step s as = some s' → I s' (bs ++ gathered step give s as)
  | [], _, _, bs, hI, _, hr => by
    cases hr
    rwa [gathered, List.append_nil]
  | a :: as, s, s', bs, hI, hok, hr => by
    obtain ⟨t, ht, hrest⟩ := runs_cons.mp hr
    have hrun := runs_gathered keeps (keeps s a t bs hI hok.1 ht) (hok.2 t ht) hrest
    rw [gathered, ht]
    dsimp only
    rwa [← List.append_assoc]

/-- What a run of two parts gives. -/
theorem gathered_append {β : Type*} {give : σ → α → Option β} {as bs : List α} {s t : σ}
    (hr : runs step s as = some t) : gathered step give s (as ++ bs) =
      gathered step give s as ++ gathered step give t bs := by
  induction as generalizing s with
  | nil =>
    cases hr
    rfl
  | cons a as ih =>
    obtain ⟨u, hu, hr⟩ := runs_cons.mp hr
    rw [List.cons_append, gathered, gathered, hu]
    dsimp only
    rw [ih hr, List.append_assoc]

/-- What is made of each thing that a run gives. -/
theorem gathered_filterMap {β γ : Type*} (give : σ → α → Option β) (f : β → Option γ) :
    ∀ (as : List α) (s : σ), gathered step (fun s a => (give s a).bind f) s as =
      (gathered step give s as).filterMap f
  | [], _ => rfl
  | a :: as, s => by
    rw [gathered, gathered, List.filterMap_append]
    congr 1
    · cases h : give s a with
      | none => rfl
      | some b => cases hf : f b <;> simp [hf]
    · cases h : step s a with
      | none => rfl
      | some t => exact gathered_filterMap give f as t

/-- The register rule: what every action either writes or leaves alone is at the end what was
written last, or what it was at the start. -/
theorem runs_register {γ : Type*} (register : σ → γ) {writes : σ → α → Option γ}
    (sets : ∀ s a s', step s a = some s' → register s' = (writes s a).getD (register s)) :
    ∀ {as : List α} {s s' : σ}, runs step s as = some s' →
      register s' = (gathered step writes s as).getLast?.getD (register s)
  | [], _, _, hr => by
    cases hr
    rfl
  | a :: as, s, s', hr => by
    obtain ⟨t, ht, hrest⟩ := runs_cons.mp hr
    rw [runs_register register sets hrest, sets s a t ht, gathered, ht]
    dsimp only
    rw [List.getLast?_append]
    cases (gathered step writes t as).getLast? with
    | none =>
      cases writes s a with
      | none => rfl
      | some c => rfl
    | some c => rfl

/-! ## What every run comes to -/

/-- Every run of allowed actions from here is finite, and before the goal is reached some action,
allowed or not, is always enabled. -/
inductive Inevitably (step : σ → α → Option σ) (ok : σ → α → Prop) (goal : σ → Prop) : σ → Prop
  | reached {s : σ} : goal s → Inevitably step ok goal s
  | later {s : σ} : (∃ a s', step s a = some s') →
      (∀ a s', ok s a → step s a = some s' → Inevitably step ok goal s') →
      Inevitably step ok goal s

/-- The rule: an invariant under which something can happen, and a measure that every allowed
action lowers. -/
theorem inevitably_of_measure {β : Type*} [WellFoundedRelation β] {goal I : σ → Prop} {s : σ}
    (measure : σ → β) (enabled : ∀ s, I s → ¬ goal s → ∃ a s', step s a = some s')
    (lowers : ∀ s a s', I s → ok s a → step s a = some s' →
      goal s' ∨ (I s' ∧ WellFoundedRelation.rel (measure s') (measure s)))
    (hI : I s) : Inevitably step ok goal s := by
  by_cases hgoal : goal s
  · exact .reached hgoal
  · refine .later (enabled s hI hgoal) fun a s' hok hstep => ?_
    rcases lowers s a s' hI hok hstep with hg | ⟨hI', hlt⟩
    · exact .reached hg
    · exact inevitably_of_measure measure enabled lowers hI'
termination_by measure s
decreasing_by exact hlt

/-- What is bound to happen, and whatever follows from it. -/
theorem Inevitably.mono {goal goal' : σ → Prop} {s : σ} (h : Inevitably step ok goal s)
    (hgoal : ∀ s, goal s → goal' s) : Inevitably step ok goal' s := by
  induction h with
  | reached hg => exact .reached (hgoal _ hg)
  | later henabled _ ih => exact .later henabled ih

end Np2ptp.Lib
