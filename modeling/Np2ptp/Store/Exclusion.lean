import Np2ptp.Store.Outline

/-!
# The write guard

Who holds the write guard is the only one that adds bytes to pack files, so the chunk it writes lies
in one piece where it started (`placing`). From then on nothing moves it: pack files only grow, over
every run of the machine (`Sys.packs_grow`).
-/

namespace Np2ptp

open Lib

/-! ## Placed chunks -/

/-- The chunk lies in the pack file at the location. -/
def Disk.Placed (d : Disk) (bytes : Bytes) (loc : PackLoc) : Prop :=
  ∃ old more, d.packs.lookup loc.packId = some (old ++ bytes ++ more) ∧
    loc.offset.toNat = old.length ∧ old.length + bytes.length ≤ MAX_FILE ∧
    loc.length = UInt32.ofNat bytes.length

/-- Pack files that are there have the same bytes as before. -/
def PacksKeep (packs packs' : HashMap UInt32 Bytes) : Prop :=
  ∀ id content, packs.lookup id = some content → packs'.lookup id = some content

theorem PacksKeep.grow {p q : HashMap UInt32 Bytes} (h : PacksKeep p q) : PacksGrow p q :=
  fun id content hl => ⟨[], by rw [h id content hl, List.append_nil]⟩

/-- Creating a pack file that may be there already. -/
theorem PacksKeep.insert (packs : HashMap UInt32 Bytes) (id : UInt32) :
    PacksKeep packs (packs.insert id ((packs.lookup id).getD [])) := by
  intro id' content hl
  by_cases he : id' = id
  · subst he
    rw [Finmap.lookup_insert, hl]
    rfl
  · rw [Finmap.lookup_insert_of_ne _ he, hl]

theorem PackState.rotate_keep (d : Disk) (p : PackState) :
    PacksKeep d.packs (p.rotate d).2.packs := by
  unfold PackState.rotate
  split
  · exact .insert _ _
  · exact fun _ _ h => h

theorem Disk.Placed.grow {d d' : Disk} (h : PacksGrow d.packs d'.packs) {bytes : Bytes}
    {loc : PackLoc} (hp : d.Placed bytes loc) : d'.Placed bytes loc := by
  obtain ⟨old, more, hl, hoffset, hfit, hlen⟩ := hp
  obtain ⟨more', hm⟩ := h _ _ hl
  exact ⟨old, more ++ more', by rw [hm, List.append_assoc _ more], hoffset, hfit, hlen⟩

/-- A placed chunk is read back, if its length fits the index line. -/
theorem Disk.Placed.readFromPack {d : Disk} {bytes : Bytes} {loc : PackLoc}
    (hp : d.Placed bytes loc) (hlen : bytes.length < 2 ^ 32) : d.readFromPack loc = some bytes := by
  obtain ⟨old, more, hl, hoffset, hfit, hlength⟩ := hp
  refine Option.bind_eq_some_iff.mpr ⟨_, hl, ?_⟩
  rw [hlength]
  exact readAt_written hoffset hfit hlen

/-! ## Exclusion -/

/-- The owner of the guard keeps it, and nobody adds bytes to a pack file meanwhile. -/
structure Undisturbed (o : Owner) (d : Disk) (guard : Option Owner) (d' : Disk)
    (guard' : Option Owner) : Prop where
  grow : PacksGrow d.packs d'.packs
  owner : guard = some o → guard' = some o ∧ PacksKeep d.packs d'.packs

/-- What does not write into pack files disturbs nobody. -/
theorem Undisturbed.of_keep {o : Owner} {d d' : Disk} {guard : Option Owner}
    (h : PacksKeep d.packs d'.packs) : Undisturbed o d guard d' guard :=
  ⟨h.grow, fun hg => ⟨hg, h⟩⟩

/-- The owner of the guard disturbs nobody else, nor does who takes it. -/
theorem Undisturbed.of_owner {o me : Owner} {d d' : Disk} {guard guard' : Option Owner}
    (h : PacksGrow d.packs d'.packs) (hme : guard = none ∨ guard = some me) (ho : o ≠ me) :
    Undisturbed o d guard d' guard' := by
  refine ⟨h, fun hg => ?_⟩
  rcases hme with he | he
  · rw [he] at hg
    cases hg
  · rw [he, Option.some.injEq] at hg
    exact absurd hg.symm ho

/-- A handle that dies does not take the guard from another one. -/
theorem Undisturbed.release {o : Owner} {i : Nat} {d d' : Disk} {guard : Option Owner}
    (h : Undisturbed o d guard d' guard) (ho : o.handle ≠ i) :
    Undisturbed o d guard d' (Owner.release i guard) := by
  refine ⟨h.grow, fun hg => ⟨?_, (h.owner hg).2⟩⟩
  rw [hg, Owner.release, if_neg (by simpa using ho)]

/-- A thread that writes holds the guard, and what it has written so far lies at the end of the pack
file; a thread that is past writing has its chunk placed. -/
def Pc.Placing (c : Shared) (i t : Nat) : Pc → Prop
  | .seek _ => c.guard = some (.thread i t)
  | .writing bytes id offset rest => c.guard = some (.thread i t) ∧ ∃ old written,
      c.disk.packs.lookup id = some (old ++ written) ∧ bytes = written ++ rest ∧
      offset = old.length ∧ (old ++ written).length ≤ MAX_FILE
  | .appending bytes loc _ | .inserting bytes loc | .bumping bytes loc | .unlocking bytes loc =>
    c.disk.Placed bytes loc
  | _ => True

/-- An opening holds the guard from taking it to releasing it. -/
def Opening.Guarded (guard : Option Owner) (i : Nat) : Opening → Prop
  | .readIndex | .truncate _ | .writeBack _ | .trimRefs | .release => guard = some (.opener i)
  | _ => True

/-- A `put` that wrote its chunk has it placed. -/
def Put.Placed (d : Disk) (p : Put) : Prop := ∀ loc, p.2 = some loc → d.Placed p.1 loc

/-- The outline of the write guard: pack files have grown from what they were. -/
def placing (packs : HashMap UInt32 Bytes) : Outline where
  files d := PacksGrow packs d.packs
  handle _ _ := True
  thread := Pc.Placing
  opener _ guard i o := o.Guarded guard i
  returned := Put.Placed

theorem Pc.Plain.placing {pc : Pc} (hpc : pc.Plain) (c : Shared) (i t : Nat) :
    pc.Placing c i t := by
  cases pc with
  | rotate | guardWait | seek | writing | appending | inserting | bumping | unlocking => cases hpc
  | _ => trivial

theorem Pc.Placing.stable {c c' : Shared} {i t : Nat} {pc : Pc} (hp : pc.Placing c i t)
    (h : Undisturbed (.thread i t) c.disk c.guard c'.disk c'.guard) : pc.Placing c' i t := by
  cases pc with
  | seek bytes => exact (h.owner hp).1
  | writing bytes id offset rest =>
    obtain ⟨hg, old, written, hl, hbytes, hoffset, hfit⟩ := hp
    exact ⟨(h.owner hg).1, old, written, (h.owner hg).2 _ _ hl, hbytes, hoffset, hfit⟩
  | appending bytes loc rest => exact Disk.Placed.grow h.grow hp
  | inserting bytes loc => exact Disk.Placed.grow h.grow hp
  | bumping bytes loc => exact Disk.Placed.grow h.grow hp
  | unlocking bytes loc => exact Disk.Placed.grow h.grow hp
  | _ => trivial

theorem Opening.Guarded.stable {d d' : Disk} {guard guard' : Option Owner} {i : Nat} {o : Opening}
    (ho : o.Guarded guard i) (h : Undisturbed (.opener i) d guard d' guard') :
    o.Guarded guard' i := by
  cases o with
  | readIndex | truncate | writeBack | trimRefs | release => exact (h.owner ho).1
  | _ => trivial

/-- Who disturbs no other owner of the guard keeps the outline for other handles. -/
theorem placing_stable {packs : HashMap UInt32 Bytes} {i : Nat} {d d' : Disk}
    {guard guard' : Option Owner}
    (hgrow : PacksGrow d.packs d'.packs)
    (h : ∀ o, o.handle ≠ i → Undisturbed o d guard d' guard') :
    (placing packs).Stable i d guard d' guard' where
  files h := h.trans hgrow
  handle _ := id
  thread j _ u _ hj hp := Pc.Placing.stable hp (h (.thread j u) hj)
  opener j _ hj ho := ho.stable (h (.opener j) hj)
  returned _ hp loc hl := (hp loc hl).grow hgrow

section

variable [Blake3]

/-- A step of a thread writes into a pack file only if the thread holds the guard. -/
theorem Pc.next_placing {c : Shared} {i t : Nat} {pc pc' : Pc} {e : Effect} {puts : List Put}
    (hp : pc.Placing c i t) (hn : pc.next c = some (e, pc', puts)) :
    pc'.Placing (e.apply i t c) i t ∧
      (∀ o, o ≠ .thread i t →
        Undisturbed o c.disk c.guard (e.apply i t c).disk (e.apply i t c).guard) ∧
      PacksGrow c.disk.packs (e.apply i t c).disk.packs ∧
      ∀ p ∈ puts, p.Placed (e.apply i t c).disk := by
  have hkeep : PacksKeep c.disk.packs c.disk.packs := fun _ _ h => h
  have hquiet : ∀ (o : Owner), o ≠ .thread i t →
      Undisturbed o c.disk c.guard c.disk c.guard := fun _ _ => .of_keep hkeep
  by_cases hplain : pc.Plain
  · obtain ⟨he, hpc', hputs⟩ := hplain.next hn
    obtain ⟨hd, hg⟩ := he.apply i t c
    rw [hd, hg]
    refine ⟨?_, hquiet, .refl _, fun p hm l hl => ?_⟩
    · rcases hpc' with h | ⟨b, rfl⟩
      · exact h.placing _ _ _
      · trivial
    · rw [hputs p hm] at hl
      cases hl
  cases pc with
  | rotate bytes =>
    cases hn
    have hr := PackState.rotate_keep c.disk c.handle.store.packState
    exact ⟨trivial, fun _ _ => .of_keep hr, hr.grow, by simp⟩
  | guardWait bytes =>
    simp only [Pc.next] at hn
    split at hn
    · next hfree =>
      cases hn
      exact ⟨rfl, fun _ ho => .of_owner (.refl _) (.inl hfree) ho, .refl _, by simp⟩
    · cases hn
  | seek bytes =>
    simp only [Pc.next] at hn
    split at hn
    · next hfit =>
      cases hn
      have hg : PacksGrow c.disk.packs _ :=
        .insert c.disk.packs c.handle.store.packState.currentId []
      refine ⟨⟨hp, _, [], Finmap.lookup_insert _, rfl, rfl, ?_⟩,
        fun _ ho => .of_owner hg (.inr hp) ho, hg, by simp⟩
      simpa using hfit
    · cases hn
  | writing bytes id offset rest =>
    obtain ⟨hown, old, written, hl, hbytes, hoffset, hfit⟩ := hp
    simp only [Pc.next] at hn
    split at hn
    · next hrest =>
      cases hn
      subst hrest hoffset
      rw [List.append_nil] at hbytes
      subst hbytes
      refine ⟨⟨old, [], by rw [List.append_nil]; exact hl, ?_, by simpa using hfit, rfl⟩,
        fun _ ho => .of_owner (.refl _) (.inr hown) ho, .refl _, by simp⟩
      refine UInt64.toNat_ofNat_of_lt' ?_
      have hmax : MAX_FILE < 2 ^ 64 := by decide
      rw [List.length_append] at hfit
      show _ < 2 ^ 64
      omega
    · cases hn
  | appending bytes loc rest =>
    simp only [Pc.next] at hn
    split at hn
    · cases hn
      exact ⟨hp, hquiet, .refl _, by simp⟩
    · cases hn
  | inserting bytes loc =>
    cases hn
    exact ⟨hp, hquiet, .refl _, by simp⟩
  | bumping bytes loc =>
    simp only [Pc.next] at hn
    split at hn
    · cases hn
      exact ⟨hp, hquiet, .refl _, by simp⟩
    · cases hn
  | unlocking bytes loc =>
    cases hn
    refine ⟨trivial, hquiet, .refl _, fun p hm l hl => ?_⟩
    cases List.mem_singleton.mp hm
    cases hl
    exact hp
  | _ => exact absurd trivial hplain

omit [Blake3] in
/-- Bytes that land in a pack file come from the owner of the guard. -/
theorem Pc.land_placing {c : Shared} {i t n : Nat} {pc pc' : Pc} {e : Effect}
    (hp : pc.Placing c i t) (hn : pc.land c n = some (e, pc')) :
    pc'.Placing (e.apply i t c) i t ∧
      (∀ o, o ≠ .thread i t →
        Undisturbed o c.disk c.guard (e.apply i t c).disk (e.apply i t c).guard) ∧
      PacksGrow c.disk.packs (e.apply i t c).disk.packs ∧ (e.apply i t c).guard = c.guard := by
  cases pc with
  | writing bytes id offset rest =>
    obtain ⟨hown, old, written, hl, hbytes, hoffset, -⟩ := hp
    simp only [Pc.land] at hn
    split at hn
    · next hfit =>
      cases hn
      have hg : PacksGrow c.disk.packs _ := .insert c.disk.packs id (rest.take n)
      refine ⟨⟨hown, old, written ++ rest.take n, ?_, ?_, hoffset, ?_⟩,
        fun _ ho => .of_owner hg (.inr hown) ho, hg, rfl⟩
      · simp only [Effect.apply, Finmap.lookup_insert, hl, Option.getD_some, List.append_assoc]
      · rw [hbytes, List.append_assoc, List.take_append_drop]
      · rw [hl, Option.getD_some, ← List.length_append, List.append_assoc] at hfit
        exact hfit
    · cases hn
  | appending bytes loc rest =>
    cases hn
    exact ⟨hp, fun _ _ => .of_keep fun _ _ h => h, .refl _, rfl⟩
  | _ => cases hn

omit [Blake3] in
/-- A step of an opening creates a pack file at most, and moves the guard only if it is free or
its own. -/
theorem Opening.next_guarded {i : Nat} {d d' : Disk} {guard guard' : Option Owner} {o : Opening}
    {slot : Slot} (ho : o.Guarded guard i) (hn : o.next i d guard = some (d', guard', slot)) :
    PacksKeep d.packs d'.packs ∧ (guard' = guard ∨ guard = none ∨ guard = some (.opener i)) ∧
      ∀ packs, (placing packs).slot d' guard' i slot := by
  have hkeep : ∀ {p : HashMap UInt32 Bytes}, PacksKeep p p := fun _ _ h => h
  cases o with
  | guardWait =>
    simp only [Opening.next] at hn
    split at hn
    · next hfree =>
      cases hn
      exact ⟨hkeep, .inr (.inl hfree), fun _ => rfl⟩
    · cases hn
  | readIndex =>
    simp only [Opening.next] at hn
    split at hn
    · split at hn
      · cases hn
        exact ⟨hkeep, .inl rfl, fun _ => ho⟩
      · cases hn
        exact ⟨hkeep, .inl rfl, fun _ => ho⟩
    · cases hn
      exact ⟨hkeep, .inr (.inr ho), fun _ => trivial⟩
  | truncate kept =>
    cases hn
    exact ⟨hkeep, .inl rfl, fun _ => ho⟩
  | writeBack kept =>
    cases hn
    exact ⟨hkeep, .inl rfl, fun _ => ho⟩
  | trimRefs =>
    simp only [Opening.next] at hn
    split at hn
    · cases hn
      exact ⟨hkeep, .inl rfl, fun _ => ho⟩
    · cases hn
      exact ⟨hkeep, .inr (.inr ho), fun _ => trivial⟩
  | release =>
    cases hn
    exact ⟨hkeep, .inr (.inr ho), fun _ => trivial⟩
  | loadIndex =>
    simp only [Opening.next] at hn
    split at hn
    · cases hn
      exact ⟨hkeep, .inl rfl, fun _ => trivial⟩
    · cases hn
      exact ⟨hkeep, .inl rfl, fun _ => trivial⟩
  | loadRefs packIndex pos =>
    simp only [Opening.next] at hn
    split at hn
    · cases hn
      exact ⟨hkeep, .inl rfl, fun _ => trivial⟩
    · cases hn
      exact ⟨hkeep, .inl rfl, fun _ => trivial⟩
  | scan packIndex pos refs refsPos =>
    cases hn
    exact ⟨.insert _ _, .inl rfl, fun _ => ⟨trivial, fun _ => trivial⟩⟩

/-- Every step keeps the outline of the write guard. -/
theorem placing_keeps {packs : HashMap UInt32 Bytes} {sys sys' : Sys} {a : Action}
    (hA : (placing packs).Holds sys) (hs : sys.step a = some sys') :
    (placing packs).Holds sys' := by
  have hother : ∀ {o : Owner} {i : Nat} (t : Nat), o.handle ≠ i → o ≠ .thread i t := by
    rintro o i t ho rfl
    exact ho rfl
  refine Outline.keeps hA hs (fun i _ => trivial) (fun i o d guard slot _ hslot hn => ?_)
    (fun i t r h _ _ _ => ?_) (fun i t h e pc puts _ hlive hn => ?_)
    (fun i t n h e pc _ hlive hn => ?_) (fun i t n h e pc _ hlive hn => ?_)
    (fun i t n h e pc _ hlive hn => ?_) (fun i _ => ?_)
  · obtain ⟨hkeep, hguard, hnew⟩ := Opening.next_guarded (hA.opener _ _ hslot) hn
    refine ⟨placing_stable hkeep.grow fun o ho => ?_, hnew packs⟩
    rcases hguard with rfl | hguard
    · exact .of_keep hkeep
    · exact .of_owner hkeep.grow hguard (by rintro rfl; exact ho rfl)
  · refine ⟨.refl _ _ _, fun _ => trivial, fun u pc _ hp => hp, ?_, by simp⟩
    cases r <;> trivial
  · obtain ⟨hself, hothers, hgrow, hputs⟩ := Pc.next_placing (hA.thread _ _ hlive t) hn
    exact ⟨placing_stable hgrow fun o ho => hothers o (hother t ho), fun _ => trivial,
      fun u pc hu hp => hp.stable (hothers _ (by simpa using hu)), hself, hputs⟩
  · obtain ⟨hself, hothers, hgrow, -⟩ := Pc.land_placing (hA.thread _ _ hlive t) hn
    exact ⟨placing_stable hgrow fun o ho => hothers o (hother t ho), fun _ => trivial,
      fun u pc hu hp => hp.stable (hothers _ (by simpa using hu)), hself, by simp⟩
  · obtain ⟨-, hothers, hgrow, hguard⟩ := Pc.land_placing (hA.thread _ _ hlive t) hn
    have hfail : ∀ o, o ≠ .thread i t → Undisturbed o sys.disk sys.guard
        ((e.apply i t (sys.view h)).fail i t).disk ((e.apply i t (sys.view h)).fail i t).guard := by
      intro o ho
      refine ⟨hgrow, fun hg => ?_⟩
      obtain ⟨hg', hk⟩ := (hothers o ho).owner hg
      refine ⟨?_, hk⟩
      simp only [Shared.fail, hg']
      exact if_neg (by simpa using ho)
    exact ⟨placing_stable hgrow fun o ho => hfail o (hother t ho), fun _ => trivial,
      fun u pc hu hp => hp.stable (hfail _ (by simpa using hu)), trivial, by simp⟩
  · obtain ⟨-, hothers, hgrow, hguard⟩ := Pc.land_placing (hA.thread _ _ hlive t) hn
    refine placing_stable hgrow fun o ho => Undisturbed.release ?_ ho
    have h' := hothers o (hother t ho)
    rw [hguard] at h'
    exact h'
  · exact placing_stable (.refl _) fun o ho => (Undisturbed.of_keep fun _ _ h => h).release ho

omit [Blake3] in
/-- The outline can be taken up anew in every state in which it holds. -/
theorem placing_rebase {packs : HashMap UInt32 Bytes} {sys : Sys} (hA : (placing packs).Holds sys) :
    (placing sys.disk.packs).Holds sys :=
  ⟨.refl _, hA.handle, hA.thread, hA.opener, hA.idle, hA.returned⟩

/-- What lies in a pack file stays there over every run. -/
theorem Sys.packs_grow {packs : HashMap UInt32 Bytes} {sys sys' : Sys} {as : List Action}
    (hA : (placing packs).Holds sys) (hr : runs Sys.step sys as = some sys') :
    PacksGrow sys.disk.packs sys'.disk.packs :=
  (runs_invariant' (fun _ _ _ hI hs => placing_keeps hI hs) (placing_rebase hA) hr).files

end

end Np2ptp
