import Np2ptp.Store.Machine
import Np2ptp.Store.Sound

/-!
# What a step of the machine does

One lemma for each thing that a step leaves alone: outside of a write a thread changes its own
handle only (`Pc.Plain.next`), no step but the landing of bytes touches the index
(`Pc.next_index`), and a thread goes on with the chunk it was called with (`Pc.next_chunk`).
-/

namespace Np2ptp

open Lib

/-- Bytes land only for a thread of an open handle that is writing. -/
theorem Sys.land_eq_some {sys : Sys} {i t n : Nat} {k : Shared → Pc → Sys} {sys' : Sys}
    (hk : sys.land i t n k = some sys') : ∃ h e pc, sys.slots i = .live h ∧
      (sys.pcs i t).land (sys.view h) n = some (e, pc) ∧
      sys' = k (e.apply i t (sys.view h)) pc := by
  unfold Sys.land Sys.shared at hk
  split at hk
  · cases hk
  · next c hc =>
    split at hc
    · next h hlive =>
      cases hc
      split at hk
      · cases hk
      · next e pc hp =>
        cases hk
        exact ⟨h, e, pc, hlive, hp, rfl⟩
    · cases hc

section

variable [Blake3]

theorem Sys.call_eq_some {sys sys' : Sys} {i t : Nat} {r : Request}
    (hs : sys.step (.call i t r) = some sys') : ∃ h, sys.slots i = .live h ∧
      sys.pcs i t = .idle ∧ sys' = sys.after i t (sys.view h) r.start [] := by
  simp only [Sys.step, Sys.shared] at hs
  split at hs
  · next c hc hidle =>
    split at hc
    · next h hlive =>
      cases hc
      cases hs
      exact ⟨h, hlive, hidle, rfl⟩
    · cases hc
  · cases hs

theorem Sys.step_eq_some {sys sys' : Sys} {i t : Nat} (hs : sys.step (.step i t) = some sys') :
    ∃ h e pc puts, sys.slots i = .live h ∧
      (sys.pcs i t).next (sys.view h) = some (e, pc, puts) ∧
      sys' = sys.after i t (e.apply i t (sys.view h)) pc puts := by
  simp only [Sys.step, Sys.shared] at hs
  split at hs
  · cases hs
  · next c hc =>
    split at hc
    · next h hlive =>
      cases hc
      split at hs
      · cases hs
      · next e pc puts hnext =>
        cases hs
        exact ⟨h, e, pc, puts, hlive, hnext, rfl⟩
    · cases hc

theorem Sys.openStep_eq_some {sys sys' : Sys} {i : Nat}
    (hs : sys.step (.openStep i) = some sys') : ∃ o d guard slot, sys.slots i = .opening o ∧
      o.next i sys.disk sys.guard = some (d, guard, slot) ∧
      sys' = { sys with disk := d, guard := guard, slots := Function.update sys.slots i slot } := by
  simp only [Sys.step] at hs
  split at hs
  · next o hslot =>
    split at hs
    · cases hs
    · next d guard slot hnext =>
      cases hs
      exact ⟨o, d, guard, slot, hslot, hnext, rfl⟩
  · cases hs

end

/-! ## Steps outside of a write -/

/-- The thread is not in the part of `put` that writes. -/
def Pc.Plain : Pc → Prop
  | .rotate _ | .guardWait _ | .seek _ | .writing .. | .appending .. | .inserting .. | .bumping ..
  | .unlocking .. => False
  | _ => True

/-- The effect concerns the handle only. -/
def Effect.Quiet : Effect → Prop
  | .rotate | .takeGuard | .growPack .. | .dropGuard _ | .growIndex _ => False
  | _ => True

theorem Effect.Quiet.apply {e : Effect} (he : e.Quiet) (i t : Nat) (c : Shared) :
    (e.apply i t c).disk = c.disk ∧ (e.apply i t c).guard = c.guard := by
  cases e with
  | rotate | takeGuard | growPack | dropGuard | growIndex => cases he
  | _ => exact ⟨rfl, rfl⟩

/-- Outside of a write a thread changes its handle only, and what it returns it did not write. -/
theorem Pc.Plain.next [Blake3] {c : Shared} {pc pc' : Pc} {e : Effect} {puts : List Put}
    (hpc : pc.Plain) (hn : pc.next c = some (e, pc', puts)) :
    e.Quiet ∧ (pc'.Plain ∨ ∃ bytes, pc' = .rotate bytes) ∧ ∀ p ∈ puts, p.2 = none := by
  have hfound : ∀ j : Job, some j.found = some (e, pc', puts) →
      e.Quiet ∧ (pc'.Plain ∨ ∃ bytes, pc' = .rotate bytes) ∧ ∀ p ∈ puts, p.2 = none := by
    intro j hj
    cases j <;> cases hj <;> simp [Effect.Quiet, Pc.Plain]
  have hreturn : ∀ k : Return, k.ok.Plain ∧ k.failed.Plain := by
    intro k
    cases k <;> simp [Return.ok, Return.failed, Pc.Plain]
  cases pc with
  | rotate | guardWait | seek | writing | appending | inserting | bumping | unlocking => cases hpc
  | refreshAdvance k n =>
    cases hn
    exact ⟨trivial, .inl (hreturn k).1, by simp⟩
  | refreshStat k =>
    simp only [Pc.next] at hn
    split at hn
    · cases hn
      exact ⟨trivial, .inl (hreturn k).1, by simp⟩
    · cases hn
      simp [Effect.Quiet, Pc.Plain]
  | refreshRead k =>
    simp only [Pc.next] at hn
    split at hn
    · split at hn
      · cases hn
        exact ⟨trivial, .inl (hreturn k).1, by simp⟩
      · cases hn
        simp [Effect.Quiet, Pc.Plain]
    · cases hn
      exact ⟨trivial, .inl (hreturn k).2, by simp⟩
  | _ =>
    simp only [Pc.next] at hn
    repeat' split at hn
    all_goals first
      | exact hfound _ hn
      | cases hn <;> simp [Effect.Quiet, Pc.Plain]

/-! ## The index -/

/-- No step of a thread changes the index: only the bytes of a line that land do. -/
theorem Pc.next_index [Blake3] {c : Shared} {i t : Nat} {pc pc' : Pc} {e : Effect}
    {puts : List Put} (hn : pc.next c = some (e, pc', puts)) :
    (e.apply i t c).disk.index = c.disk.index := by
  by_cases hplain : pc.Plain
  · rw [((hplain.next hn).1.apply i t c).1]
  cases pc with
  | rotate bytes =>
    cases hn
    obtain ⟨packs, hd, -⟩ := PackState.rotate_disk c.disk c.handle.store.packState
    simp only [Effect.apply, Shared.setStore, hd]
  | guardWait | seek | writing | appending | inserting | bumping | unlocking =>
    simp only [Pc.next] at hn
    repeat' split at hn
    all_goals cases hn <;> rfl
  | _ => exact absurd trivial hplain

/-- Bytes that land are added to the index, if to anything but a pack file. -/
theorem Pc.land_index {c : Shared} {i t n : Nat} {pc pc' : Pc} {e : Effect}
    (hn : pc.land c n = some (e, pc')) :
    ∃ s, (e.apply i t c).disk.index = c.disk.index ++ s := by
  cases pc with
  | writing bytes id offset rest =>
    simp only [Pc.land] at hn
    split at hn <;> cases hn
    exact ⟨[], by simp [Effect.apply]⟩
  | appending bytes loc rest =>
    cases hn
    exact ⟨rest.take n, rfl⟩
  | _ => cases hn

/-! ## The chunk of a `put` -/

def Job.chunk : Job → Option Bytes
  | .has _ => none
  | .put bytes => some bytes

def Return.chunk : Return → Option Bytes
  | .early j => j.chunk
  | .late bytes => some bytes
  | .get _ => none

/-- The chunk that a thread in a `put` was called with. -/
def Pc.chunk : Pc → Option Bytes
  | .hasPack j | .hasObject j | .hasRefs j | .hasAgain j => j.chunk
  | .refreshLock k | .refreshStat k | .refreshRead k | .refreshApply k _ | .refreshAdvance k _ =>
    k.chunk
  | .packLock bytes | .putRefs bytes | .recheckPack bytes | .recheckObject bytes
  | .recheckRefs bytes | .dedup bytes | .rotate bytes | .guardWait bytes | .seek bytes
  | .writing bytes .. | .appending bytes .. | .inserting bytes _ | .bumping bytes _
  | .unlocking bytes _ => some bytes
  | _ => none

/-- A thread goes on with its chunk, and it is the chunk it returns. -/
theorem Pc.next_chunk [Blake3] {c : Shared} {pc pc' : Pc} {e : Effect} {puts : List Put}
    (hn : pc.next c = some (e, pc', puts)) :
    (∀ b, pc'.chunk = some b → pc.chunk = some b) ∧ ∀ p ∈ puts, pc.chunk = some p.1 := by
  have hok : ∀ k : Return, ∀ b, k.ok.chunk = some b → k.chunk = some b := by
    intro k b h
    rcases k with (_ | _) | _ | _ <;> simp_all [Return.ok, Return.chunk, Pc.chunk, Job.chunk]
  have hfailed : ∀ k : Return, ∀ b, k.failed.chunk = some b → k.chunk = some b := by
    intro k b h
    rcases k with (_ | _) | _ | _ <;>
      simp_all [Return.failed, Return.ok, Return.chunk, Pc.chunk, Job.chunk]
  have hfound : ∀ j : Job, some j.found = some (e, pc', puts) →
      (∀ b, pc'.chunk = some b → j.chunk = some b) ∧ ∀ p ∈ puts, j.chunk = some p.1 := by
    intro j hj
    cases j <;> cases hj <;> simp [Pc.chunk, Job.chunk]
  cases pc with
  | refreshStat k =>
    simp only [Pc.next] at hn
    split at hn
    · cases hn
      exact ⟨hok k, by simp⟩
    · cases hn
      exact ⟨fun _ => id, by simp⟩
  | refreshRead k =>
    simp only [Pc.next] at hn
    split at hn
    · split at hn
      · cases hn
        exact ⟨hok k, by simp⟩
      · cases hn
        exact ⟨fun _ => id, by simp⟩
    · cases hn
      exact ⟨hfailed k, by simp⟩
  | refreshAdvance k n =>
    cases hn
    exact ⟨hok k, by simp⟩
  | _ =>
    simp only [Pc.next] at hn
    repeat' split at hn
    all_goals first
      | exact hfound _ hn
      | cases hn <;> simp [Pc.chunk, Job.chunk, Return.chunk]

/-- The bytes that land are of the chunk or of its line. -/
theorem Pc.land_chunk {c : Shared} {n : Nat} {pc pc' : Pc} {e : Effect}
    (hn : pc.land c n = some (e, pc')) : pc'.chunk = pc.chunk := by
  cases pc with
  | writing bytes id offset rest =>
    simp only [Pc.land] at hn
    split at hn <;> cases hn
    rfl
  | appending bytes loc rest =>
    cases hn
    rfl
  | _ => cases hn

/-! ## Threads that were never called -/

/-- A thread runs only if it was called. -/
theorem Sys.step_idle [Blake3] {sys sys' : Sys} {a : Action} {i t : Nat}
    (hidle : sys.pcs i t = .idle) (ha : ∀ r, a ≠ .call i t r) (hs : sys.step a = some sys') :
    sys'.pcs i t = .idle := by
  have hafter : ∀ {j u : Nat} {c : Shared} {pc : Pc} {puts : List Put}, (j, u) ≠ (i, t) →
      (sys.after j u c pc puts).pcs i t = .idle := by
    intro j u c pc puts hne
    by_cases hij : i = j
    · subst hij
      have htu : t ≠ u := by
        rintro rfl
        exact hne rfl
      simpa only [Sys.after, Function.update_self, Function.update_of_ne htu] using hidle
    · simpa only [Sys.after, Function.update_of_ne hij] using hidle
  have hkill : ∀ (j : Nat) (d : Disk), (sys.kill j d).pcs i t = .idle := by
    intro j d
    by_cases hij : i = j
    · subst hij
      simp only [Sys.kill, Function.update_self]
    · simpa only [Sys.kill, Function.update_of_ne hij] using hidle
  cases a with
  | «open» j =>
    simp only [Sys.step] at hs
    split at hs <;> cases hs
    exact hidle
  | openStep j =>
    obtain ⟨o, d, guard, slot, -, -, rfl⟩ := Sys.openStep_eq_some hs
    exact hidle
  | call j u r =>
    obtain ⟨h, -, -, rfl⟩ := Sys.call_eq_some hs
    refine hafter ?_
    rintro ⟨⟩
    exact ha r rfl
  | step j u =>
    obtain ⟨h, e, pc, puts, -, hn, rfl⟩ := Sys.step_eq_some hs
    refine hafter ?_
    rintro ⟨⟩
    rw [hidle] at hn
    cases hn
  | land j u n =>
    obtain ⟨h, e, pc, -, hn, rfl⟩ := Sys.land_eq_some (by simpa only [Sys.step] using hs)
    refine hafter ?_
    rintro ⟨⟩
    rw [hidle] at hn
    cases hn
  | fault j u n =>
    obtain ⟨h, e, pc, -, hn, rfl⟩ := Sys.land_eq_some (by simpa only [Sys.step] using hs)
    refine hafter ?_
    rintro ⟨⟩
    rw [hidle] at hn
    cases hn
  | tear j u n =>
    obtain ⟨h, e, pc, -, hn, rfl⟩ := Sys.land_eq_some (by simpa only [Sys.step] using hs)
    exact hkill _ _
  | crash j =>
    cases hs
    exact hkill _ _

/-- A thread that was never called is idle after every run. -/
theorem Sys.idle_of_uncalled [Blake3] {i t : Nat} : ∀ {as : List Action} {sys sys' : Sys},
    sys.pcs i t = .idle → (∀ a ∈ as, ∀ r, a ≠ .call i t r) → runs Sys.step sys as = some sys' →
    sys'.pcs i t = .idle
  | [], _, _, hidle, _, hr => by cases hr; exact hidle
  | a :: as, _, _, hidle, ha, hr => by
    obtain ⟨mid, hs, hrest⟩ := runs_cons.mp hr
    exact Sys.idle_of_uncalled (Sys.step_idle hidle (ha a List.mem_cons_self) hs)
      (fun b hb => ha b (List.mem_cons_of_mem _ hb)) hrest

end Np2ptp
