import Np2ptp.Store.PackIndex

/-!
# Openings and appends

`Store::open` reads the index, truncates it and writes back the whole lines it read. It holds the
write guard, but an index line is appended without the guard. A line that has been appended stays a
closed line of the index as long as no line comes in between these three steps, and as long as the
pieces of a line follow each other (`open_keeps_lines`).
-/

namespace Np2ptp

open Lib

/-! ## Lines that are shown -/

/-- The index without its torn line, which an opening is about to truncate it to. -/
def Slot.truncating : Slot → Option Bytes
  | .opening (.truncate kept) => some kept
  | _ => none

/-- What an opening has truncated and is about to write back. -/
def Slot.writingBack : Slot → Option Bytes
  | .opening (.writeBack kept) => some kept
  | _ => none

/-- The text is a closed line of the index, or of what an opening is about to write back. -/
def Sys.Shows (sys : Sys) (l : Bytes) : Prop :=
  l ∈ closedLines LF sys.disk.index ∨
    ∃ i kept, (sys.slots i).writingBack = some kept ∧ l ∈ closedLines LF kept

/-- A line stays shown when text is appended and no write-back is lost. -/
theorem Sys.Shows.append {sys sys' : Sys} {l : Bytes} (h : sys.Shows l)
    (hindex : ∃ t, sys'.disk.index = sys.disk.index ++ t)
    (hslots : ∀ i kept, (sys.slots i).writingBack = some kept →
      (sys'.slots i).writingBack = some kept) : sys'.Shows l := by
  rcases h with h | ⟨i, kept, hi, h⟩
  · obtain ⟨t, ht⟩ := hindex
    refine .inl ?_
    rw [ht, closedLines_append]
    exact List.mem_append_left _ h
  · exact .inr ⟨i, kept, hslots i kept hi, h⟩

/-- A slot that changes loses no write-back if there is none in it. -/
theorem Sys.writingBack_update {sys : Sys} {i : Nat} {slot : Slot}
    (hi : (sys.slots i).writingBack = none) (j : Nat) (kept : Bytes)
    (hj : (sys.slots j).writingBack = some kept) :
    (Function.update sys.slots i slot j).writingBack = some kept := by
  have hne : j ≠ i := by
    rintro rfl
    rw [hi] at hj
    cases hj
  rw [Function.update_of_ne hne, hj]

theorem packIndexLine_ne_nil (h : Hash) (loc : PackLoc) : packIndexLine h loc ≠ [] := by
  simp [packIndexLine]

section

variable [Blake3]

/-! ## The steps that lose no line -/

/-- The line that a thread is appending, and the part of it that has still to land. -/
def Pc.landing : Pc → Option (Bytes × Bytes)
  | .appending bytes loc rest => some (packIndexLine (Hash.of bytes) loc, rest)
  | _ => none

/-- The bytes of a line that land follow the part of the line that has landed; an opening truncates
the index while its whole lines are those that were read, and writes them back while no line has
been closed since; and it does not die in between. -/
def Sys.Orderly (sys : Sys) : Action → Prop
  | .land i t _ => ∀ p ∈ (sys.pcs i t).landing, p.2 = [] ∨ torn LF sys.disk.index ++ p.2 = p.1
  | .openStep i =>
    (∀ kept ∈ (sys.slots i).truncating, complete LF sys.disk.index = kept) ∧
      ∀ kept ∈ (sys.slots i).writingBack, kept = [] ∨ LF ∉ sys.disk.index
  | .crash i => (sys.slots i).writingBack = none
  | _ => True

instance (sys : Sys) : ∀ a, Decidable (sys.Orderly a)
  | .land i t _ => inferInstanceAs (Decidable (∀ p ∈ (sys.pcs i t).landing, _))
  | .openStep _ => inferInstanceAs (Decidable (_ ∧ _))
  | .crash _ => inferInstanceAs (Decidable (_ = _))
  | .open _ | .call .. | .step .. | .fault .. | .tear .. => .isTrue trivial

/-- An orderly step of an opening loses no line. -/
theorem Sys.Shows.openStep {sys : Sys} {i : Nat} {o : Opening} {d : Disk} {guard : Option Owner}
    {slot : Slot} {l : Bytes} (h : sys.Shows l) (hslot : sys.slots i = .opening o)
    (hok : sys.Orderly (.openStep i)) (hn : o.next i sys.disk sys.guard = some (d, guard, slot)) :
    Sys.Shows { sys with disk := d, guard := guard, slots := Function.update sys.slots i slot }
      l := by
  obtain ⟨htruncate, hback⟩ := hok
  rw [hslot] at htruncate hback
  cases o with
  | truncate kept =>
    cases hn
    rcases h with h | ⟨j, kept', hj, h⟩
    · refine .inr ⟨i, kept, by simp [Slot.writingBack], ?_⟩
      rw [← htruncate kept rfl, closedLines, (complete_terminated _).complete_eq]
      exact h
    · exact .inr ⟨j, kept', sys.writingBack_update (by rw [hslot]; rfl) j kept' hj, h⟩
  | writeBack kept =>
    cases hn
    have hhere : l ∈ closedLines LF kept ∨ l ∈ closedLines LF sys.disk.index →
        l ∈ closedLines LF (kept ++ sys.disk.index.drop kept.length) := by
      rintro (h | h)
      · rw [closedLines_append]
        exact List.mem_append_left _ h
      · rcases hback kept rfl with rfl | hno
        · exact h
        · rw [← List.nil_append sys.disk.index, closedLines_append_of_notMem hno] at h
          cases h
    rcases h with h | ⟨j, kept', hj, h⟩
    · exact .inl (hhere (.inr h))
    · by_cases hji : j = i
      · subst hji
        rw [hslot] at hj
        cases hj
        exact .inl (hhere (.inl h))
      · refine .inr ⟨j, kept', ?_, h⟩
        simp only [Function.update_of_ne hji, hj]
  | guardWait | readIndex | trimRefs | release | loadIndex | loadRefs | scan =>
    have hindex : d.index = sys.disk.index := by
      simp only [Opening.next] at hn
      repeat' split at hn
      all_goals cases hn <;> rfl
    exact h.append ⟨[], by simp [hindex]⟩ (sys.writingBack_update (by rw [hslot]; rfl))

/-- An orderly step loses no line. -/
theorem Sys.Shows.step {sys sys' : Sys} {a : Action} {l : Bytes} (h : sys.Shows l)
    (hok : sys.Orderly a) (hs : sys.step a = some sys') : sys'.Shows l := by
  have hland : ∀ {i t n : Nat} {k : Shared → Pc → Sys}, sys.land i t n k = some sys' →
      (∀ c pc, (k c pc).disk.index = c.disk.index) →
      (∀ c pc, ∃ slot, (k c pc).slots = Function.update sys.slots i slot) → sys'.Shows l := by
    intro i t n k hk hd hsl
    obtain ⟨g, e, pc, hlive, hn, rfl⟩ := Sys.land_eq_some hk
    obtain ⟨s, hs⟩ := Pc.land_index (i := i) (t := t) hn
    obtain ⟨slot, hslot⟩ := hsl (e.apply i t (sys.view g)) pc
    exact h.append ⟨s, (hd _ _).trans hs⟩ (hslot ▸ sys.writingBack_update (by rw [hlive]; rfl))
  cases a with
  | «open» i =>
    simp only [Sys.step] at hs
    split at hs
    · next hslot =>
      cases hs
      exact h.append ⟨[], by simp⟩ (sys.writingBack_update (by rw [hslot]; rfl))
    · cases hs
  | openStep i =>
    obtain ⟨o, d, guard, slot, hslot, hn, rfl⟩ := Sys.openStep_eq_some hs
    exact h.openStep hslot hok hn
  | call i t r =>
    obtain ⟨g, hlive, -, rfl⟩ := Sys.call_eq_some hs
    exact h.append ⟨[], by simp [Sys.after]⟩ (sys.writingBack_update (by rw [hlive]; rfl))
  | step i t =>
    obtain ⟨g, e, pc, puts, hlive, hn, rfl⟩ := Sys.step_eq_some hs
    exact h.append ⟨[], by simp [Sys.after, Pc.next_index hn]⟩
      (sys.writingBack_update (by rw [hlive]; rfl))
  | land i t n =>
    exact hland (by simpa only [Sys.step] using hs) (fun _ _ => rfl) fun _ _ => ⟨_, rfl⟩
  | fault i t n =>
    exact hland (by simpa only [Sys.step] using hs) (fun _ _ => rfl) fun _ _ => ⟨_, rfl⟩
  | tear i t n =>
    exact hland (by simpa only [Sys.step] using hs) (fun _ _ => rfl) fun _ _ => ⟨_, rfl⟩
  | crash i =>
    cases hs
    exact h.append ⟨[], by simp [Sys.kill]⟩ (sys.writingBack_update hok)

/-! ## The lines of what was put -/

/-- A thread that is past its index line has it shown. -/
def Pc.Shown (sys : Sys) : Pc → Prop
  | .appending bytes loc rest => rest = [] → sys.Shows (packIndexLine (Hash.of bytes) loc)
  | .inserting bytes loc | .bumping bytes loc | .unlocking bytes loc =>
    sys.Shows (packIndexLine (Hash.of bytes) loc)
  | _ => True

/-- The line of every `put` that returned is shown, and so are those of threads about to return. -/
structure Sys.Commits (sys : Sys) : Prop where
  threads : ∀ i t, (sys.pcs i t).Shown sys
  returned : ∀ bytes loc, (bytes, some loc) ∈ sys.returned →
    sys.Shows (packIndexLine (Hash.of bytes) loc)

variable {sys sys' : Sys}

theorem Pc.Shown.mono (h : ∀ l, sys.Shows l → sys'.Shows l) {pc : Pc} (hp : pc.Shown sys) :
    pc.Shown sys' := by
  cases pc with
  | appending bytes loc rest => exact fun hr => h _ (hp hr)
  | inserting bytes loc => exact h _ hp
  | bumping bytes loc => exact h _ hp
  | unlocking bytes loc => exact h _ hp
  | _ => trivial

theorem Pc.Plain.shown {pc : Pc} (hpc : pc.Plain) (sys : Sys) : pc.Shown sys := by
  cases pc with
  | rotate | guardWait | seek | writing | appending | inserting | bumping | unlocking => cases hpc
  | _ => trivial

/-- A thread shows its line before it goes past it, and before it returns. -/
theorem Pc.Shown.next {c : Shared} {pc pc' : Pc} {e : Effect} {puts : List Put}
    (hp : pc.Shown sys) (hn : pc.next c = some (e, pc', puts)) :
    pc'.Shown sys ∧ ∀ bytes loc, (bytes, some loc) ∈ puts →
      sys.Shows (packIndexLine (Hash.of bytes) loc) := by
  by_cases hplain : pc.Plain
  · obtain ⟨-, hpc', hputs⟩ := hplain.next hn
    refine ⟨?_, fun bytes loc hm => by cases hputs _ hm⟩
    rcases hpc' with h | ⟨b, rfl⟩
    · exact h.shown sys
    · trivial
  cases pc with
  | writing bytes id offset rest =>
    simp only [Pc.next] at hn
    split at hn <;> cases hn
    exact ⟨fun hr => absurd hr (packIndexLine_ne_nil _ _), by simp⟩
  | appending bytes loc rest =>
    simp only [Pc.next] at hn
    split at hn
    · next hrest =>
      cases hn
      exact ⟨hp hrest, by simp⟩
    · cases hn
  | inserting bytes loc =>
    cases hn
    exact ⟨hp, by simp⟩
  | bumping bytes loc =>
    simp only [Pc.next] at hn
    split at hn <;> cases hn
    exact ⟨hp, by simp⟩
  | unlocking bytes loc =>
    cases hn
    refine ⟨trivial, fun b l hm => ?_⟩
    cases List.mem_singleton.mp hm
    exact hp
  | rotate | guardWait | seek =>
    simp only [Pc.next] at hn
    repeat' split at hn
    all_goals cases hn <;> exact ⟨trivial, by simp⟩
  | _ => exact absurd trivial hplain

/-- The last piece of a line that lands behind the others closes the line. -/
theorem Pc.Shown.land {i t n : Nat} {h : Handle} {pc' : Pc} {e : Effect}
    (hp : (sys.pcs i t).Shown sys) (hok : sys.Orderly (.land i t n))
    (hkeep : ∀ l, sys.Shows l → sys'.Shows l)
    (hn : (sys.pcs i t).land (sys.view h) n = some (e, pc'))
    (hd : sys'.disk = (e.apply i t (sys.view h)).disk) : pc'.Shown sys' := by
  cases hpc : sys.pcs i t with
  | writing bytes id offset rest =>
    rw [hpc] at hn
    simp only [Pc.land] at hn
    split at hn <;> cases hn
    trivial
  | appending bytes loc rest =>
    rw [hpc] at hn hp
    cases hn
    intro hdone
    by_cases hrest : rest = []
    · exact hkeep _ (hp hrest)
    · have hline := (hok _ (by rw [hpc]; rfl)).resolve_left hrest
      have hall : rest.take n = rest := List.take_of_length_le (List.drop_eq_nil_iff.mp hdone)
      -- the last piece ends with the line feed
      obtain ⟨u, rfl⟩ : ∃ u, rest = u ++ [LF] := by
        obtain ⟨u, a, rfl⟩ := List.eq_nil_or_concat rest |>.resolve_left hrest
        rw [List.concat_eq_append, ← List.append_assoc, packIndexLine] at hline
        obtain ⟨-, ha⟩ := List.append_inj' hline rfl
        exact ⟨u, by rw [List.concat_eq_append, ha]⟩
      rw [← List.append_assoc, packIndexLine] at hline
      have htext := List.append_cancel_right hline
      have hu : LF ∉ u := fun hm =>
        LF_notMem_packIndexText _ _ (htext ▸ List.mem_append_right _ hm)
      refine .inl ?_
      rw [hd]
      simp only [Effect.apply, hall]
      rw [closedLines_append_line hu, htext]
      exact List.mem_append_right _ (List.mem_singleton.mpr rfl)
  | _ =>
    rw [hpc] at hn
    cases hn

/-- The threads after a step of one of them. -/
theorem Sys.Commits.after {i t : Nat} {c : Shared} {pc : Pc} {puts : List Put}
    (hC : sys.Commits) (hkeep : ∀ l, sys.Shows l → (sys.after i t c pc puts).Shows l)
    (hpc : pc.Shown (sys.after i t c pc puts))
    (hputs : ∀ bytes loc, (bytes, some loc) ∈ puts →
      (sys.after i t c pc puts).Shows (packIndexLine (Hash.of bytes) loc)) :
    (sys.after i t c pc puts).Commits := by
  refine ⟨fun j u => ?_, fun bytes loc hm => ?_⟩
  · have hold := (hC.threads j u).mono hkeep
    by_cases hj : j = i
    · subst hj
      by_cases hu : u = t
      · subst hu
        simpa only [Sys.after, Function.update_self] using hpc
      · simpa only [Sys.after, Function.update_self, Function.update_of_ne hu] using hold
    · simpa only [Sys.after, Function.update_of_ne hj] using hold
  · rcases List.mem_append.mp hm with hm | hm
    · exact hkeep _ (hC.returned _ _ hm)
    · exact hputs _ _ hm

/-- The threads of a handle that is gone are idle. -/
theorem Sys.Commits.kill {i : Nat} {d : Disk} (hC : sys.Commits)
    (hkeep : ∀ l, sys.Shows l → (sys.kill i d).Shows l) : (sys.kill i d).Commits := by
  refine ⟨fun j u => ?_, fun bytes loc hm => hkeep _ (hC.returned _ _ hm)⟩
  by_cases hj : j = i
  · subst hj
    simp only [Sys.kill, Function.update_self]
    trivial
  · simpa only [Sys.kill, Function.update_of_ne hj] using (hC.threads j u).mono hkeep

/-- An orderly step keeps what was committed. -/
theorem Sys.Commits.step {a : Action} (hC : sys.Commits) (hok : sys.Orderly a)
    (hs : sys.step a = some sys') : sys'.Commits := by
  have hkeep : ∀ l, sys.Shows l → sys'.Shows l := fun l h => h.step hok hs
  cases a with
  | «open» i =>
    simp only [Sys.step] at hs
    split at hs
    · cases hs
      exact ⟨fun j u => (hC.threads j u).mono hkeep, fun b l hm => hkeep _ (hC.returned _ _ hm)⟩
    · cases hs
  | openStep i =>
    obtain ⟨o, d, guard, slot, hslot, hn, rfl⟩ := Sys.openStep_eq_some hs
    exact ⟨fun j u => (hC.threads j u).mono hkeep, fun b l hm => hkeep _ (hC.returned _ _ hm)⟩
  | call i t r =>
    obtain ⟨h, hlive, -, rfl⟩ := Sys.call_eq_some hs
    refine hC.after hkeep ?_ (by simp)
    cases r <;> trivial
  | step i t =>
    obtain ⟨h, e, pc, puts, hlive, hn, rfl⟩ := Sys.step_eq_some hs
    obtain ⟨hpc, hputs⟩ := (hC.threads i t).next hn
    exact hC.after hkeep (hpc.mono hkeep) fun b l hm => hkeep _ (hputs b l hm)
  | land i t n =>
    obtain ⟨h, e, pc, hlive, hn, rfl⟩ := Sys.land_eq_some (by simpa only [Sys.step] using hs)
    exact hC.after hkeep ((hC.threads i t).land hok hkeep hn rfl) (by simp)
  | fault i t n =>
    obtain ⟨h, e, pc, hlive, hn, rfl⟩ := Sys.land_eq_some (by simpa only [Sys.step] using hs)
    exact hC.after hkeep trivial (by simp)
  | tear i t n =>
    obtain ⟨h, e, pc, hlive, hn, rfl⟩ := Sys.land_eq_some (by simpa only [Sys.step] using hs)
    exact hC.kill hkeep
  | crash i =>
    cases hs
    exact hC.kill hkeep

/-! ## Runs -/

/-- Opening a store deletes no committed line in a run of orderly steps: started from any index,
with openings and with the `put` calls of any number of threads, the line of every `put` that
returned is a closed line of the index, whenever no opening is between truncating and writing
back. -/
theorem open_keeps_lines {as : List Action} (hidle : ∀ i t, sys.pcs i t = .idle)
    (hreturned : ∀ bytes loc, (bytes, some loc) ∈ sys.returned →
      packIndexLine (Hash.of bytes) loc ∈ closedLines LF sys.disk.index)
    (hok : Along Sys.step Sys.Orderly sys as) (hr : runs Sys.step sys as = some sys')
    (hopen : ∀ i, (sys'.slots i).writingBack = none) {bytes : Bytes} {loc : PackLoc}
    (hm : (bytes, some loc) ∈ sys'.returned) :
    packIndexLine (Hash.of bytes) loc ∈ closedLines LF sys'.disk.index := by
  have hstart : sys.Commits := by
    refine ⟨fun i t => ?_, fun b l h => .inl (hreturned b l h)⟩
    rw [hidle]
    trivial
  have hC := runs_invariant (I := Sys.Commits) (fun _ _ _ hI hok hs => hI.step hok hs) hstart hok hr
  rcases hC.returned _ _ hm with h | ⟨i, kept, hi, -⟩
  · exact h
  · rw [hopen i] at hi
    cases hi

end

/-- The chunk of one handle is put while another handle is opened, whose opening lies between the
two pieces of the index line. -/
def openBetweenPieces : List Action :=
  Action.opening 0 7 ++ Action.writing 0 0 [120] ++ [.land 0 0 30] ++ Action.opening 1 2 ++
    Action.finishing 0 0 ++ List.replicate 7 (.openStep 1)

/-- The same with the opening before the index line. -/
def openBeforeLine : List Action :=
  Action.opening 0 7 ++ Action.writing 0 0 [120] ++ Action.opening 1 7 ++ Action.finishing 0 0

theorem openBeforeLine_orderly : Along (@Sys.step blake3OfX) (@Sys.Orderly blake3OfX)
    (Sys.start (Disk.fresh ∅ ∅ some)) openBeforeLine := by
  decide +kernel

/-- A `put` next to an opening keeps its line. -/
theorem open_keeps_lines_before :
    let _ := blake3OfX
    ∃ sys, runs Sys.step (Sys.start (Disk.fresh ∅ ∅ some)) openBeforeLine = some sys ∧
      ([120], some ⟨0, 0, 1⟩) ∈ sys.returned ∧
      packIndexLine (Hash.of [120]) ⟨0, 0, 1⟩ ∈ closedLines LF sys.disk.index := by
  let _ := blake3OfX
  have hreturned : (runs Sys.step (Sys.start (Disk.fresh ∅ ∅ some)) openBeforeLine).map
      (fun sys => sys.returned) = some [([120], some ⟨0, 0, 1⟩)] := by
    decide +kernel
  have hslots : ∀ i, (runs Sys.step (Sys.start (Disk.fresh ∅ ∅ some)) openBeforeLine).map
      (fun sys => (sys.slots i).writingBack) = some none
    | 0 => by decide +kernel
    | 1 => by decide +kernel
    | _ + 2 => rfl
  obtain ⟨sys, hr, hm⟩ := Option.map_eq_some_iff.mp hreturned
  have hmem : ([120], some ⟨0, 0, 1⟩) ∈ sys.returned := by simp [hm]
  refine ⟨sys, hr, hmem, open_keeps_lines (fun _ _ => rfl) (fun _ _ h => by cases h)
    openBeforeLine_orderly hr (fun i => ?_) hmem⟩
  simpa only [hr, Option.map_some, Option.some.injEq] using hslots i

/-- The opening read the first piece as a torn line and truncates the index after the line was
appended and its `put` returned: the line is gone. -/
theorem open_deletes_line :
    let _ := blake3OfX
    ∃ sys, runs Sys.step (Sys.start (Disk.fresh ∅ ∅ some)) openBetweenPieces = some sys ∧
      (∀ i, (sys.slots i).writingBack = none) ∧ ([120], some ⟨0, 0, 1⟩) ∈ sys.returned ∧
      packIndexLine (Hash.of [120]) ⟨0, 0, 1⟩ ∉ closedLines LF sys.disk.index := by
  let _ := blake3OfX
  have hreturned : (runs Sys.step (Sys.start (Disk.fresh ∅ ∅ some)) openBetweenPieces).map
      (fun sys => (sys.returned, sys.disk.index)) = some ([([120], some ⟨0, 0, 1⟩)], []) := by
    decide +kernel
  have hslots : ∀ i, (runs Sys.step (Sys.start (Disk.fresh ∅ ∅ some)) openBetweenPieces).map
      (fun sys => (sys.slots i).writingBack) = some none
    | 0 => by decide +kernel
    | 1 => by decide +kernel
    | _ + 2 => rfl
  obtain ⟨sys, hr, hm⟩ := Option.map_eq_some_iff.mp hreturned
  obtain ⟨hret, hindex⟩ := Prod.mk.inj hm
  refine ⟨sys, hr, fun i => ?_, by simp [hret], ?_⟩
  · simpa only [hr, Option.map_some, Option.some.injEq] using hslots i
  · rw [hindex]
    decide

end Np2ptp
