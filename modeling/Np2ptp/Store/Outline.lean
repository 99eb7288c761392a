import Np2ptp.Store.MachineLaws

/-!
# Proof outlines of the store machine

An outline says what holds wherever a thread or an opening can be (`Outline`). It holds of every
state of a run when each step establishes the assertion of the place it leads to and disturbs no
assertion of another thread, opening or handle (`Outline.keeps`). The laws of the machine are
outlines, so each of them is checked locally, one program counter at a time.
-/

namespace Np2ptp

open Lib

/-! ## Outlines -/

/-- Assertions for the files, for an open handle, for a thread at a program counter, for an
opening, and for a `put` that has returned. -/
structure Outline where
  files : Disk → Prop
  handle : Disk → Handle → Prop
  thread : Shared → Nat → Nat → Pc → Prop
  opener : Disk → Option Owner → Nat → Opening → Prop
  returned : Disk → Put → Prop

/-- The assertion for what became of an opening. -/
def Outline.slot (A : Outline) (d : Disk) (guard : Option Owner) (i : Nat) : Slot → Prop
  | .closed => True
  | .opening o => A.opener d guard i o
  | .live h => A.handle d h ∧ ∀ t, A.thread ⟨d, guard, h⟩ i t .idle

/-- Every assertion holds, and no thread runs on a handle that is not open. -/
structure Outline.Holds (A : Outline) (sys : Sys) : Prop where
  files : A.files sys.disk
  handle : ∀ i h, sys.slots i = .live h → A.handle sys.disk h
  thread : ∀ i h, sys.slots i = .live h → ∀ t,
    A.thread (sys.view h) i t (sys.pcs i t)
  opener : ∀ i o, sys.slots i = .opening o → A.opener sys.disk sys.guard i o
  idle : ∀ i, (∀ h, sys.slots i ≠ .live h) → ∀ t, sys.pcs i t = .idle
  returned : ∀ p ∈ sys.returned, A.returned sys.disk p

/-- A change of the files and the guard on behalf of the handle `i` disturbs no assertion about
other handles. -/
structure Outline.Stable (A : Outline) (i : Nat) (d : Disk) (guard : Option Owner) (d' : Disk)
    (guard' : Option Owner) : Prop where
  files : A.files d → A.files d'
  handle : ∀ h, A.handle d h → A.handle d' h
  thread : ∀ j h u pc, j ≠ i → A.thread ⟨d, guard, h⟩ j u pc → A.thread ⟨d', guard', h⟩ j u pc
  opener : ∀ j o, j ≠ i → A.opener d guard j o → A.opener d' guard' j o
  returned : ∀ p, A.returned d p → A.returned d' p

theorem Outline.Stable.refl {A : Outline} (i : Nat) (d : Disk) (guard : Option Owner) :
    A.Stable i d guard d guard :=
  ⟨id, fun _ => id, fun _ _ _ _ _ => id, fun _ _ _ => id, fun _ => id⟩

/-- A step of the thread `t` of the handle `i` establishes the assertions of the place it leads
to and disturbs no other. -/
structure Outline.Advances (A : Outline) (i t : Nat) (c c' : Shared) (pc : Pc)
    (puts : List Put) : Prop where
  stable : A.Stable i c.disk c.guard c'.disk c'.guard
  handle : A.handle c.disk c.handle → A.handle c'.disk c'.handle
  sibling : ∀ u pc, u ≠ t → A.thread c i u pc → A.thread c' i u pc
  self : A.thread c' i t pc
  returned : ∀ p ∈ puts, A.returned c'.disk p

variable {A : Outline} {sys : Sys} {i t : Nat}

/-- A step of a thread. -/
theorem Outline.Holds.after (hA : A.Holds sys) {h : Handle} (hlive : sys.slots i = .live h)
    {c : Shared} {pc : Pc} {puts : List Put}
    (hadv : A.Advances i t (sys.view h) c pc puts) :
    A.Holds (sys.after i t c pc puts) := by
  refine ⟨hadv.stable.files hA.files, fun j g hj => ?_, fun j g hj u => ?_, fun j o hj => ?_,
    fun j hj u => ?_, fun p hp => ?_⟩
  · by_cases hji : j = i
    · subst hji
      simp only [Sys.after, Function.update_self, Slot.live.injEq] at hj
      subst hj
      exact hadv.handle (hA.handle _ _ hlive)
    · simp only [Sys.after, Function.update_of_ne hji] at hj
      exact hadv.stable.handle _ (hA.handle _ _ hj)
  · by_cases hji : j = i
    · subst hji
      simp only [Sys.after, Function.update_self, Slot.live.injEq] at hj
      subst hj
      by_cases hut : u = t
      · subst hut
        simpa only [Sys.after, Function.update_self] using hadv.self
      · simpa only [Sys.after, Function.update_self, Function.update_of_ne hut] using
          hadv.sibling u _ hut (hA.thread _ _ hlive u)
    · simp only [Sys.after, Function.update_of_ne hji] at hj ⊢
      exact hadv.stable.thread _ _ _ _ hji (hA.thread _ _ hj u)
  · by_cases hji : j = i
    · subst hji
      simp [Sys.after] at hj
    · simp only [Sys.after, Function.update_of_ne hji] at hj
      exact hadv.stable.opener _ _ hji (hA.opener _ _ hj)
  · by_cases hji : j = i
    · subst hji
      simp [Sys.after] at hj
    · simp only [Sys.after, Function.update_of_ne hji] at hj ⊢
      exact hA.idle _ hj u
  · rcases List.mem_append.mp hp with hp | hp
    · exact hadv.stable.returned _ (hA.returned _ hp)
    · exact hadv.returned _ hp

/-- A step of an opening. -/
theorem Outline.Holds.opened (hA : A.Holds sys) (hslot : ∀ h, sys.slots i ≠ .live h)
    {d : Disk} {guard : Option Owner} {slot : Slot}
    (hstable : A.Stable i sys.disk sys.guard d guard) (hnew : A.slot d guard i slot) :
    A.Holds { sys with disk := d, guard := guard, slots := Function.update sys.slots i slot } := by
  have hidle : ∀ t, sys.pcs i t = .idle := hA.idle i hslot
  refine ⟨hstable.files hA.files, fun j g hj => ?_, fun j g hj u => ?_, fun j o' hj => ?_,
    fun j hj u => ?_, fun p hp => hstable.returned _ (hA.returned _ hp)⟩
  · by_cases hji : j = i
    · subst hji
      simp only [Function.update_self] at hj
      rw [hj] at hnew
      exact hnew.1
    · simp only [Function.update_of_ne hji] at hj
      exact hstable.handle _ (hA.handle _ _ hj)
  · by_cases hji : j = i
    · subst hji
      simp only [Function.update_self] at hj
      rw [hj] at hnew
      simp only [hidle u]
      exact hnew.2 u
    · simp only [Function.update_of_ne hji] at hj
      exact hstable.thread _ _ _ _ hji (hA.thread _ _ hj u)
  · by_cases hji : j = i
    · subst hji
      simp only [Function.update_self] at hj
      rw [hj] at hnew
      exact hnew
    · simp only [Function.update_of_ne hji] at hj
      exact hstable.opener _ _ hji (hA.opener _ _ hj)
  · by_cases hji : j = i
    · subst hji
      exact hidle u
    · simp only [Function.update_of_ne hji] at hj
      exact hA.idle _ hj u

/-- The handle `i` is gone, with all its threads. -/
theorem Outline.Holds.closed (hA : A.Holds sys) {d : Disk} {guard : Option Owner}
    (hstable : A.Stable i sys.disk sys.guard d guard) :
    A.Holds { sys with
      disk := d
      guard := guard
      slots := Function.update sys.slots i .closed
      pcs := Function.update sys.pcs i fun _ => .idle } := by
  refine ⟨hstable.files hA.files, fun j g hj => ?_, fun j g hj u => ?_, fun j o' hj => ?_,
    fun j hj u => ?_, fun p hp => hstable.returned _ (hA.returned _ hp)⟩
  · by_cases hji : j = i
    · subst hji
      simp at hj
    · simp only [Function.update_of_ne hji] at hj
      exact hstable.handle _ (hA.handle _ _ hj)
  · by_cases hji : j = i
    · subst hji
      simp at hj
    · simp only [Function.update_of_ne hji] at hj ⊢
      exact hstable.thread _ _ _ _ hji (hA.thread _ _ hj u)
  · by_cases hji : j = i
    · subst hji
      simp at hj
    · simp only [Function.update_of_ne hji] at hj
      exact hstable.opener _ _ hji (hA.opener _ _ hj)
  · by_cases hji : j = i
    · subst hji
      simp
    · simp only [Function.update_of_ne hji] at hj ⊢
      exact hA.idle _ hj u

variable [Blake3]

/-- The outline rule: a step keeps an outline if it advances its own thread or opening, and
disturbs no other. -/
theorem Outline.keeps {a : Action} {sys' : Sys} (hA : A.Holds sys) (hs : sys.step a = some sys')
    (hopen : ∀ i, a = .open i → A.opener sys.disk sys.guard i .guardWait)
    (hopening : ∀ i o d guard slot, a = .openStep i → sys.slots i = .opening o →
      o.next i sys.disk sys.guard = some (d, guard, slot) →
      A.Stable i sys.disk sys.guard d guard ∧ A.slot d guard i slot)
    (hcall : ∀ i t r h, a = .call i t r → sys.slots i = .live h → sys.pcs i t = .idle →
      A.Advances i t (sys.view h) (sys.view h) r.start [])
    (hstep : ∀ i t h e pc puts, a = .step i t → sys.slots i = .live h →
      (sys.pcs i t).next (sys.view h) = some (e, pc, puts) →
      A.Advances i t (sys.view h) (e.apply i t (sys.view h)) pc puts)
    (hland : ∀ i t n h e pc, a = .land i t n → sys.slots i = .live h →
      (sys.pcs i t).land (sys.view h) n = some (e, pc) →
      A.Advances i t (sys.view h) (e.apply i t (sys.view h)) pc [])
    (hfault : ∀ i t n h e pc, a = .fault i t n → sys.slots i = .live h →
      (sys.pcs i t).land (sys.view h) n = some (e, pc) →
      A.Advances i t (sys.view h)
        ((e.apply i t (sys.view h)).fail i t) .idle [])
    (htear : ∀ i t n h e pc, a = .tear i t n → sys.slots i = .live h →
      (sys.pcs i t).land (sys.view h) n = some (e, pc) →
      A.Stable i sys.disk sys.guard (e.apply i t (sys.view h)).disk
        (Owner.release i sys.guard))
    (hcrash : ∀ i, a = .crash i →
      A.Stable i sys.disk sys.guard sys.disk (Owner.release i sys.guard)) :
    A.Holds sys' := by
  cases a with
  | «open» i =>
    simp only [Sys.step] at hs
    split at hs
    · next hslot =>
      cases hs
      exact hA.opened (by simp [hslot]) (.refl _ _ _) (hopen i rfl)
    · cases hs
  | openStep i =>
    obtain ⟨o, d, guard, slot, hslot, hnext, rfl⟩ := Sys.openStep_eq_some hs
    obtain ⟨hstable, hnew⟩ := hopening i o d guard slot rfl hslot hnext
    exact hA.opened (by simp [hslot]) hstable hnew
  | call i t r =>
    obtain ⟨h, hlive, hidle, rfl⟩ := Sys.call_eq_some hs
    exact hA.after hlive (hcall i t r h rfl hlive hidle)
  | step i t =>
    obtain ⟨h, e, pc, puts, hlive, hnext, rfl⟩ := Sys.step_eq_some hs
    exact hA.after hlive (hstep i t h e pc puts rfl hlive hnext)
  | land i t n =>
    obtain ⟨h, e, pc, hlive, hp, rfl⟩ := Sys.land_eq_some (by simpa only [Sys.step] using hs)
    exact hA.after hlive (hland i t n h e pc rfl hlive hp)
  | fault i t n =>
    obtain ⟨h, e, pc, hlive, hp, rfl⟩ := Sys.land_eq_some (by simpa only [Sys.step] using hs)
    exact hA.after hlive (hfault i t n h e pc rfl hlive hp)
  | tear i t n =>
    obtain ⟨h, e, pc, hlive, hp, rfl⟩ := Sys.land_eq_some (by simpa only [Sys.step] using hs)
    exact hA.closed (htear i t n h e pc rfl hlive hp)
  | crash i =>
    cases hs
    exact hA.closed (hcrash i rfl)

end Np2ptp
