import Mathlib.Data.List.Nodup
import Mathlib.Logic.Function.Basic

/-!
# Reply channels

A desk takes calls, each with a reply channel of its own, and remembers for a call that it is
working on which channel to answer through. The calls are numbered in order, and the number is the
channel. What has to be kept for nobody to be forgotten or answered twice is `Desk.Tended`: a call
is either answered or held, what is held is being worked on, and no channel is used twice. The rules
say that this is kept by taking a call, by answering one, and by ending one that is not held.
-/

namespace Np2ptp.Lib

/-- The calls taken, by channel, the channel held for a call, the calls being worked on, and the
channels used. -/
structure Desk (κ : Type*) where
  calls : List κ
  held : κ → Option Nat
  live : κ → Prop
  used : List Nat

namespace Desk

variable {κ : Type*} {d : Desk κ}

/-- Nobody is forgotten and nobody is answered twice. -/
structure Tended (d : Desk κ) : Prop where
  once : d.used.Nodup
  taken : ∀ c ∈ d.used, c < d.calls.length
  holds : ∀ k c, d.held k = some c → d.calls[c]? = some k ∧ d.live k ∧ c ∉ d.used
  kept : ∀ c k, d.calls[c]? = some k → c ∈ d.used ∨ d.held k = some c

/-- A call that is over has been answered, and nothing is held for it. -/
theorem Tended.answered (h : d.Tended) {c : Nat} {k : κ} (hc : d.calls[c]? = some k)
    (hover : ¬ d.live k) : c ∈ d.used ∧ d.held k = none := by
  have hnone : d.held k = none := by
    refine Option.eq_none_iff_forall_ne_some.mpr fun c' hheld => ?_
    exact hover (h.holds k c' hheld).2.1
  rcases h.kept c k hc with hused | hheld
  · exact ⟨hused, hnone⟩
  · rw [hnone] at hheld
    cases hheld

/-- Work that begins on what nobody called for, or ends on what is not held, changes nothing. -/
theorem Tended.relive (h : d.Tended) {live : κ → Prop} (hlive : ∀ k c, d.held k = some c → live k) :
    Tended { d with live := live } :=
  ⟨h.once, h.taken, fun k c hk => ⟨(h.holds k c hk).1, hlive k c hk, (h.holds k c hk).2.2⟩, h.kept⟩

/-- The calls after one more. -/
theorem getElem?_concat {calls : List κ} {k k' : κ} {c : Nat} (h : (calls ++ [k])[c]? = some k') :
    calls[c]? = some k' ∨ c = calls.length ∧ k' = k := by
  rcases Nat.lt_trichotomy c calls.length with hlt | rfl | hgt
  · rw [List.getElem?_append_left hlt] at h
    exact .inl h
  · rw [List.getElem?_concat_length] at h
    exact .inr ⟨rfl, (Option.some.inj h).symm⟩
  · rw [List.getElem?_eq_none (by rw [List.length_append]; exact hgt)] at h
    cases h

/-- A call that is refused is answered at once. -/
theorem Tended.refuse (h : d.Tended) (k : κ) :
    Tended { d with calls := d.calls ++ [k], used := d.used ++ [d.calls.length] } := by
  have hunused : d.calls.length ∉ d.used := fun hm => Nat.lt_irrefl _ (h.taken _ hm)
  refine ⟨?_, fun c hc => ?_, fun k' c hk => ?_, fun c k' hc => ?_⟩
  · exact List.nodup_append_comm.mp (List.nodup_cons.mpr ⟨hunused, h.once⟩)
  · rw [List.length_append]
    rcases List.mem_append.mp hc with hc | hc
    · have := h.taken c hc
      omega
    · rw [List.mem_singleton.mp hc]
      exact Nat.lt_succ_self _
  · obtain ⟨hcall, hlive, hno⟩ := h.holds k' c hk
    have hlt := (List.getElem?_eq_some_iff.mp hcall).1
    refine ⟨by rwa [List.getElem?_append_left hlt], hlive, ?_⟩
    rw [List.mem_append, List.mem_singleton]
    exact not_or.mpr ⟨hno, Nat.ne_of_lt hlt⟩
  · dsimp only at hc ⊢
    rcases getElem?_concat hc with hold | ⟨rfl, rfl⟩
    · exact (h.kept c k' hold).imp_left (List.mem_append_left _)
    · exact .inl (List.mem_append_right _ List.mem_cons_self)

variable [DecidableEq κ]

/-- Taking a call that is not being worked on yet. -/
theorem Tended.take (h : d.Tended) {k : κ} (hnew : ¬ d.live k) :
    Tended ⟨d.calls ++ [k], Function.update d.held k (some d.calls.length),
      fun k' => k' = k ∨ d.live k', d.used⟩ := by
  have hunused : d.calls.length ∉ d.used := fun hm => Nat.lt_irrefl _ (h.taken _ hm)
  have hfree : ∀ c, d.held k ≠ some c := fun c hc => hnew (h.holds k c hc).2.1
  refine ⟨h.once, fun c hc => ?_, fun k' c hk => ?_, fun c k' hc => ?_⟩
  · have := h.taken c hc
    rw [List.length_append]
    omega
  · dsimp only at hk ⊢
    by_cases hkk : k' = k
    · subst hkk
      rw [Function.update_self] at hk
      cases hk
      exact ⟨by simp, .inl rfl, hunused⟩
    · rw [Function.update_of_ne hkk] at hk
      obtain ⟨hcall, hlive, hno⟩ := h.holds k' c hk
      have hlt := (List.getElem?_eq_some_iff.mp hcall).1
      exact ⟨by rwa [List.getElem?_append_left hlt], .inr hlive, hno⟩
  · dsimp only at hc ⊢
    rcases getElem?_concat hc with hold | ⟨rfl, rfl⟩
    · refine (h.kept c k' hold).imp_right fun hheld => ?_
      have hkk : k' ≠ k := by
        rintro rfl
        exact hfree c hheld
      rwa [Function.update_of_ne hkk]
    · exact .inr (Function.update_self ..)

/-- Answering a call uses its channel and lets go of it. -/
theorem Tended.answer (h : d.Tended) {k : κ} {c : Nat} (hheld : d.held k = some c) :
    Tended ⟨d.calls, Function.update d.held k none, d.live, d.used ++ [c]⟩ := by
  obtain ⟨hcall, -, hunused⟩ := h.holds k c hheld
  refine ⟨?_, fun c' hc => ?_, fun k' c' hk => ?_, fun c' k' hc => ?_⟩
  · exact List.nodup_append_comm.mp (List.nodup_cons.mpr ⟨hunused, h.once⟩)
  · rcases List.mem_append.mp hc with hc | hc
    · exact h.taken c' hc
    · rw [List.mem_singleton.mp hc]
      exact (List.getElem?_eq_some_iff.mp hcall).1
  · dsimp only at hk ⊢
    by_cases hkk : k' = k
    · subst hkk
      rw [Function.update_self] at hk
      cases hk
    · rw [Function.update_of_ne hkk] at hk
      obtain ⟨hcall', hlive', hno⟩ := h.holds k' c' hk
      refine ⟨hcall', hlive', ?_⟩
      rw [List.mem_append, List.mem_singleton]
      refine not_or.mpr ⟨hno, ?_⟩
      rintro rfl
      exact hkk (Option.some.inj (hcall'.symm.trans hcall))
  · dsimp only at hc ⊢
    by_cases hkk : k' = k
    · subst hkk
      rcases h.kept c' k' hc with hused | hheld'
      · exact .inl (List.mem_append_left _ hused)
      · obtain rfl := Option.some.inj (hheld.symm.trans hheld')
        exact .inl (List.mem_append_right _ List.mem_cons_self)
    · rw [Function.update_of_ne hkk]
      exact (h.kept c' k' hc).imp_left (List.mem_append_left _)

end Desk

end Np2ptp.Lib
