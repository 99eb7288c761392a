import Np2ptp.Node.Status

/-!
# Requests side by side

Every request of the daemon runs as a task of its own. A `provide` changes three things one after
the other, what the network task provides, the registry and the map of announces, and an `unprovide`
changes them in another order; each change is made in one piece, and any task may take its next step
at any time. Once all requests have returned, a root is in all three or in none if and only if the
last changes to the three were all made by `provide`s or all by `unprovide`s
(`requests_consistent_iff`).
-/

namespace Np2ptp

open Lib

/-- What a request changes. -/
inductive Part where
  | net
  | registry
  | announces
  deriving DecidableEq

namespace Daemon

/-! ## Tasks -/

/-- How far a `provide` or an `unprovide` is. -/
inductive Task where
  | provide (target : Bytes)
  | loaded (m : Manifest)
  | sent (m : Manifest)
  | registered (m : Manifest)
  | provided (m : Manifest)
  | unprovide (root : Bytes)
  | unlisted (root : Hash)
  | withdrawn (root : Hash)
  | retired (root : Hash)
  /-- The request has failed before it changed anything. -/
  | failed (e : DaemonError)
  /-- The registration has failed. -/
  | unregistered (m : Manifest)

/-- The task has not begun. -/
def Task.IsRequest : Task → Prop
  | .provide _ => True
  | .unprovide _ => True
  | _ => False

/-- What the request has returned. -/
def Task.result : Task → Option (Except DaemonError Unit)
  | .provided _ => some (.ok ())
  | .retired _ => some (.ok ())
  | .failed e => some (.error e)
  | .unregistered _ => some (.error .io)
  | _ => none

section

variable [Blake3] [Ed25519] [RaptorQ] {Peer : Type} [DecidableEq Peer]

/-- The next step of a task: the lines of `run_provide` and `run_unprovide`, up to where another
task may come between. -/
def Task.next (w : Daemon Peer) (fs : Fs) : Task → Option (Task × Daemon Peer)
  | .provide target =>
    match w.loadProvideManifest fs target with
    | .error e => some (.failed e, w)
    | .ok m => some (.loaded m, w)
  | .loaded m => some (.sent m, w.provide m)
  | .sent m =>
    match w.registerManifest fs m with
    | none => some (.unregistered m, w)
    | some w => some (.registered m, w)
  | .registered m => some (.provided m, w.announce m.root)
  | .unprovide root =>
    match Hash.fromHex ((root.dropPrefix? URI_PREFIX).getD root) with
    | none => some (.failed .hex, w)
    | some root => some (.unlisted root, w.unannounce root)
  | .unlisted root => some (.withdrawn root, w.unprovide root)
  | .withdrawn root => some (.retired root, w.unregister fs root)
  | _ => none

end

end Daemon

/-- A daemon and the requests that it runs. -/
structure Tasks (Peer : Type) [Ed25519] where
  daemon : Daemon Peer
  tasks : List Daemon.Task

/-- A task takes its next step, or something happens to the network task. -/
inductive TaskEvent (Peer : Type) where
  | task (i : Nat) (fs : Fs)
  | net (ev : NodeEvent Peer)

section

variable [Blake3] [Ed25519] [RaptorQ] {Peer : Type} [DecidableEq Peer]

/-- One step. -/
def Tasks.step (sys : Tasks Peer) : TaskEvent Peer → Option (Tasks Peer)
  | .task i fs =>
    match sys.tasks[i]? with
    | none => none
    | some t => (t.next sys.daemon fs).map fun x => ⟨x.2, sys.tasks.set i x.1⟩
  | .net ev =>
    if ev.isProvision then none
    else (sys.daemon.net.step ev).map fun net =>
      { sys with daemon := { sys.daemon with net := net } }

end

namespace Daemon

/-! ## Tasks and operations -/

section

variable [Blake3] [Ed25519] [RaptorQ] {Peer : Type} [DecidableEq Peer]

/-- A `provide` that nothing comes between is the operation. -/
theorem runProvide_runs (w : Daemon Peer) (fs : Fs) (target : Bytes) : ∃ n t,
    runs Tasks.step ⟨w, [.provide target]⟩ (List.replicate n (.task 0 fs)) =
        some ⟨(w.runProvide fs target).2, [t]⟩ ∧
      t.result = some (w.runProvide fs target).1 := by
  unfold runProvide
  cases hload : w.loadProvideManifest fs target with
  | error e =>
    refine ⟨1, .failed e, ?_, rfl⟩
    simp [runs, Tasks.step, Task.next, hload]
  | ok m =>
    dsimp only
    cases hreg : (w.provide m).registerManifest fs m with
    | none =>
      refine ⟨3, .unregistered m, ?_, rfl⟩
      simp [List.replicate, runs, Tasks.step, Task.next, hload, hreg]
    | some u =>
      refine ⟨4, .provided m, ?_, rfl⟩
      simp [List.replicate, runs, Tasks.step, Task.next, hload, hreg]

/-- An `unprovide` that nothing comes between is the operation. -/
theorem runUnprovide_runs (w : Daemon Peer) (fs : Fs) (root : Bytes) : ∃ n t,
    runs Tasks.step ⟨w, [.unprovide root]⟩ (List.replicate n (.task 0 fs)) =
        some ⟨(w.runUnprovide fs root).2, [t]⟩ ∧
      t.result = some (w.runUnprovide fs root).1 := by
  unfold runUnprovide
  cases hroot : Hash.fromHex ((root.dropPrefix? URI_PREFIX).getD root) with
  | none =>
    refine ⟨1, .failed .hex, ?_, rfl⟩
    simp [runs, Tasks.step, Task.next, hroot]
  | some root =>
    refine ⟨3, .retired root, ?_, rfl⟩
    simp [List.replicate, runs, Tasks.step, Task.next, hroot]

end

/-! ## What a step changes -/

section

variable [Ed25519] {Peer : Type}

/-- The part has the root. -/
def holds (w : Daemon Peer) (root : Hash) : Part → Bool
  | .net => decide (root ∈ w.net.provided)
  | .registry => decide (root ∈ w.registry)
  | .announces => decide (root ∈ w.announces)

/-- The part in which the next step of a task puts the root, or takes it away. A registry entry that
cannot be removed stays as it is. -/
def Task.changes (root : Hash) (w : Daemon Peer) (fs : Fs) : Task → Option (Part × Bool)
  | .loaded m => if m.root = root then some (.net, true) else none
  | .sent m => if m.root = root ∧ fs.writesEntry then some (.registry, true) else none
  | .registered m => if m.root = root then some (.announces, true) else none
  | .unprovide text =>
    if Hash.fromHex ((text.dropPrefix? URI_PREFIX).getD text) = some root then
      some (.announces, false)
    else none
  | .unlisted r => if r = root then some (.net, false) else none
  | .withdrawn r =>
    if r = root ∧ (fs.removesEntry ∨ root ∉ w.registry) then some (.registry, false) else none
  | _ => none

/-- What of the change is a change of the part. -/
def onPart (part : Part) (x : Part × Bool) : Option Bool := if x.1 = part then some x.2 else none

/-- The changes that a task has gone through. -/
def Task.did (root : Hash) : Task → List (Part × Bool)
  | .sent m => if m.root = root then [(.net, true)] else []
  | .unregistered m => if m.root = root then [(.net, true)] else []
  | .registered m => if m.root = root then [(.net, true), (.registry, true)] else []
  | .provided m =>
    if m.root = root then [(.net, true), (.registry, true), (.announces, true)] else []
  | .unlisted r => if r = root then [(.announces, false)] else []
  | .withdrawn r => if r = root then [(.announces, false), (.net, false)] else []
  | .retired r =>
    if r = root then [(.announces, false), (.net, false), (.registry, false)] else []
  | _ => []

/-- A step of a task that makes this change of what the daemon has of the root: the task has gone
through it, or has passed over the removal of an entry that stays. -/
structure Advances (root : Hash) (w w' : Daemon Peer) (t t' : Task)
    (change : Option (Part × Bool)) : Prop where
  holds : ∀ part, w'.holds root part = (change.bind (onPart part)).getD (w.holds root part)
  did : t'.did root = t.did root ++ change.toList ∨
    (change = none ∧ t'.did root = t.did root ++ [(.registry, false)] ∧ root ∈ w.registry)

variable {root : Hash} {w w' : Daemon Peer} {t t' : Task} {fs : Fs}

omit [Ed25519] in
theorem decide_mem_insert {k : Hash} {v : Bytes} {s : HashMap Hash Bytes} :
    decide (root ∈ s.insert k v) = if k = root then true else decide (root ∈ s) := by
  split
  · next hk => exact decide_eq_true (Finmap.mem_insert.mpr (.inl hk.symm))
  · next hk => exact decide_eq_decide.mpr (Finmap.mem_insert.trans (or_iff_right (Ne.symm hk)))

omit [Ed25519] in
theorem decide_mem_erase {k : Hash} {s : HashMap Hash Bytes} :
    decide (root ∈ s.erase k) = if k = root then false else decide (root ∈ s) := by
  split
  · next hk =>
    subst hk
    exact decide_eq_false Finmap.notMem_erase_self
  · next hk => exact decide_eq_decide.mpr (Finmap.mem_erase.trans (and_iff_right (Ne.symm hk)))

/-- A step that changes a part where a condition is met, and else nothing of the root. -/
theorem Advances.of_change {P : Prop} [Decidable P] {p : Part} {b : Bool}
    (hdid : t'.did root = t.did root ++ if P then [(p, b)] else [])
    (hp : w'.holds root p = if P then b else w.holds root p)
    (hother : ∀ q, q ≠ p → w'.holds root q = w.holds root q) :
    Advances root w w' t t' (if P then some (p, b) else none) := by
  refine ⟨fun part => ?_, .inl ?_⟩
  · by_cases hq : part = p
    · subst hq
      rw [hp]
      split
      · rw [Option.bind_some, onPart, if_pos rfl, Option.getD_some]
      · rfl
    · rw [hother part hq]
      split
      · rw [Option.bind_some, onPart, if_neg (Ne.symm hq), Option.getD_none]
      · rfl
  · rw [hdid]
    split
    · rfl
    · rfl

/-- A step that changes nothing. -/
theorem Advances.idle (hdid : t'.did root = t.did root) : Advances root w w t t' none :=
  ⟨fun _ => rfl, .inl (hdid.trans (List.append_nil _).symm)⟩

theorem holds_of_ne_net (hregistry : w'.registry = w.registry)
    (hannounces : w'.announces = w.announces) (q : Part) (hq : q ≠ .net) :
    w'.holds root q = w.holds root q := by
  cases q with
  | net => exact absurd rfl hq
  | registry => rw [holds, holds, hregistry]
  | announces => rw [holds, holds, hannounces]

theorem holds_of_ne_registry (hnet : w'.net = w.net) (hannounces : w'.announces = w.announces)
    (q : Part) (hq : q ≠ .registry) : w'.holds root q = w.holds root q := by
  cases q with
  | net => rw [holds, holds, hnet]
  | registry => exact absurd rfl hq
  | announces => rw [holds, holds, hannounces]

theorem holds_of_ne_announces (hnet : w'.net = w.net) (hregistry : w'.registry = w.registry)
    (q : Part) (hq : q ≠ .announces) : w'.holds root q = w.holds root q := by
  cases q with
  | net => rw [holds, holds, hnet]
  | registry => rw [holds, holds, hregistry]
  | announces => exact absurd rfl hq

variable [Blake3] [RaptorQ] [DecidableEq Peer]

/-- The root is in all three parts or in none: the network task answers the peer with its manifest,
the registry holds its entry, the map lists it. -/
def Consistent (p : Peer) (root : Hash) (w : Daemon Peer) : Prop :=
  (w.Answers p root ↔ root ∈ w.registry) ∧ (root ∈ w.registry ↔ root ∈ w.status)

theorem consistent_iff {p : Peer} : w.Consistent p root ↔
    w.holds root .net = w.holds root .registry ∧
      w.holds root .registry = w.holds root .announces := by
  rw [Consistent, answers_iff]
  exact and_congr decide_eq_decide.symm decide_eq_decide.symm

omit [Blake3] [RaptorQ] [DecidableEq Peer] in
/-- The last step of an `unprovide`: the entry is removed, or is not there, or stays. -/
theorem Task.withdrawn_advances {r : Hash} : Advances root w (w.unregister fs r) (.withdrawn r)
    (.retired r) ((Task.withdrawn r).changes root w fs) := by
  rw [Task.changes]
  have hother : ∀ q, q ≠ .registry → (w.unregister fs r).holds root q = w.holds root q :=
    holds_of_ne_registry (unregister_net w fs r) (unregister_announces w fs r)
  by_cases hpassed : r = root ∧ fs.removesEntry = false ∧ root ∈ w.registry
  · -- the entry stays: nothing is changed, and the task goes on
    obtain ⟨rfl, hstays, hmem⟩ := hpassed
    have hsame : w.unregister fs r = w := by
      rw [unregister, hstays]
      rfl
    rw [hsame, if_neg fun hand => hand.2.elim (by simp [hstays]) fun hno => hno hmem]
    exact ⟨fun _ => rfl, .inr ⟨rfl, by simp [Task.did], hmem⟩⟩
  · have hiff : (r = root ∧ (fs.removesEntry = true ∨ root ∉ w.registry)) ↔ r = root := by
      refine and_iff_left_of_imp fun hr => ?_
      by_contra hno
      obtain ⟨hstays, hmem⟩ := not_or.mp hno
      exact hpassed ⟨hr, Bool.eq_false_of_not_eq_true hstays, Decidable.not_not.mp hmem⟩
    simp only [hiff]
    refine .of_change ?_ ?_ hother
    · rw [Task.did, Task.did]
      split
      · rfl
      · rfl
    · by_cases hr : r = root
      · rw [if_pos hr]
        refine decide_eq_false fun hmem => ?_
        obtain ⟨hmem, hstays⟩ := mem_unregister.mp hmem
        exact (hiff.mpr hr).2.elim (fun hremoves => hstays ⟨hr, hremoves⟩) fun hno => hno hmem
      · rw [if_neg hr]
        exact decide_eq_decide.mpr
          (mem_unregister.trans (and_iff_left fun hgone => hr hgone.1))

/-- What one step of a task does about a root. -/
theorem Task.next_advances (h : t.next w fs = some (t', w')) :
    Advances root w w' t t' (t.changes root w fs) := by
  cases t with
  | provide target =>
    rw [Task.next] at h
    split at h
    · cases h
      exact .idle rfl
    · cases h
      exact .idle rfl
  | loaded m =>
    cases h
    exact .of_change rfl decide_mem_insert (holds_of_ne_net rfl rfl)
  | sent m =>
    rw [Task.next, registerManifest] at h
    rw [Task.changes]
    cases hwrites : fs.writesEntry with
    | false =>
      rw [hwrites] at h
      cases h
      rw [if_neg fun hand => Bool.false_ne_true hand.2]
      exact .idle rfl
    | true =>
      rw [hwrites] at h
      cases h
      simp only [and_true]
      refine .of_change ?_ decide_mem_insert (holds_of_ne_registry rfl rfl)
      rw [Task.did, Task.did]
      split
      · rfl
      · rfl
  | registered m =>
    cases h
    refine .of_change ?_ ?_ (holds_of_ne_announces rfl rfl)
    · rw [Task.did, Task.did]
      split
      · rfl
      · rfl
    · by_cases hm : m.root = root
      · rw [if_pos hm]
        exact decide_eq_true (Finset.mem_insert.mpr (.inl hm.symm))
      · rw [if_neg hm]
        exact decide_eq_decide.mpr (Finset.mem_insert.trans (or_iff_right (Ne.symm hm)))
  | unprovide text =>
    rw [Task.next] at h
    rw [Task.changes]
    cases hroot : Hash.fromHex ((text.dropPrefix? URI_PREFIX).getD text) with
    | none =>
      rw [hroot] at h
      cases h
      exact .idle rfl
    | some r =>
      rw [hroot] at h
      cases h
      simp only [Option.some.injEq]
      refine .of_change rfl ?_ (holds_of_ne_announces rfl rfl)
      by_cases hr : r = root
      · subst hr
        rw [if_pos rfl]
        exact decide_eq_false (Finset.notMem_erase r _)
      · rw [if_neg hr]
        exact decide_eq_decide.mpr (Finset.mem_erase.trans (and_iff_right (Ne.symm hr)))
  | unlisted r =>
    cases h
    refine .of_change ?_ decide_mem_erase (holds_of_ne_net rfl rfl)
    rw [Task.did, Task.did]
    split
    · rfl
    · rfl
  | withdrawn r =>
    cases h
    exact withdrawn_advances
  | provided m => cases h
  | retired r => cases h
  | failed e => cases h
  | unregistered m => cases h

end

end Daemon

/-! ## What a run changes -/

namespace Tasks

section

variable [Ed25519] {Peer : Type}

/-- What the event changes of the root. -/
def changes (root : Hash) (sys : Tasks Peer) : TaskEvent Peer → Option (Part × Bool)
  | .task i fs => (sys.tasks[i]?).bind fun t => t.changes root sys.daemon fs
  | .net _ => none

/-- What the event makes of the part: it puts the root there, or takes it away. -/
def written (root : Hash) (part : Part) (sys : Tasks Peer) (a : TaskEvent Peer) : Option Bool :=
  (sys.changes root a).bind (Daemon.onPart part)

/-- All changes are accounted for: what tasks have gone through was changed, but for the removal of
an entry that stays, and what was changed tasks have gone through. -/
structure Accounts (root : Hash) (sys : Tasks Peer) (changes : List (Part × Bool)) : Prop where
  made : ∀ t ∈ sys.tasks, ∀ x ∈ t.did root, x ∈ changes ∨ (x = (.registry, false) ∧
    (root ∈ sys.daemon.registry ∨ ∃ b, (.registry, b) ∈ changes))
  source : ∀ x ∈ changes, ∃ t ∈ sys.tasks, x ∈ t.did root

variable [Blake3] [RaptorQ] [DecidableEq Peer] {root : Hash} {sys sys' : Tasks Peer}
  {a : TaskEvent Peer}

/-- What one event does about a root: one task goes through a change, or nothing becomes of it. -/
theorem step_cases (h : sys.step a = some sys') (root : Hash) :
    (∃ i t t', sys.tasks[i]? = some t ∧ sys'.tasks = sys.tasks.set i t' ∧
        Daemon.Advances root sys.daemon sys'.daemon t t' (sys.changes root a)) ∨
      (sys.changes root a = none ∧ sys'.tasks = sys.tasks ∧
        ∀ part, sys'.daemon.holds root part = sys.daemon.holds root part) := by
  cases a with
  | task i fs =>
    rw [step] at h
    split at h
    · cases h
    · next t ht =>
      obtain ⟨⟨t', w⟩, hnext, rfl⟩ := Option.map_eq_some_iff.mp h
      refine .inl ⟨i, t, t', ht, rfl, ?_⟩
      rw [changes, ht]
      exact Daemon.Task.next_advances hnext
  | net ev =>
    rw [step] at h
    split at h
    · cases h
    · next hother =>
      obtain ⟨net, hnet, rfl⟩ := Option.map_eq_some_iff.mp h
      have hgives := Daemon.net_gives hnet (Bool.eq_false_of_not_eq_true hother)
      refine .inr ⟨rfl, rfl, fun part => ?_⟩
      cases part with
      | net => exact decide_eq_decide.mpr ((hgives.provided root).trans (by simp))
      | registry => rfl
      | announces => rfl

theorem step_holds (part : Part) (sys : Tasks Peer) (a : TaskEvent Peer) (sys' : Tasks Peer)
    (h : sys.step a = some sys') : sys'.daemon.holds root part =
      (sys.written root part a).getD (sys.daemon.holds root part) := by
  rcases step_cases h root with ⟨i, t, t', -, -, hadvances⟩ | ⟨hnone, -, hsame⟩
  · exact hadvances.holds part
  · rw [hsame, written, hnone]
    rfl

/-! ## The account -/

omit [Blake3] [RaptorQ] [DecidableEq Peer] in
/-- A task that has not begun has gone through nothing. -/
theorem accounts_start {requests : List Daemon.Task} (h : ∀ t ∈ requests, t.IsRequest)
    (w : Daemon Peer) : Accounts root ⟨w, requests⟩ [] := by
  refine ⟨fun t ht x hx => ?_, fun x hx => nomatch hx⟩
  have hrequest := h t ht
  cases t with
  | provide target => cases hx
  | unprovide text => cases hx
  | _ => exact hrequest.elim

omit [Blake3] [Ed25519] [RaptorQ] [DecidableEq Peer] in
/-- What a task has gone through some task has gone through after it has taken a step. -/
theorem exists_did_set {tasks : List Daemon.Task} {i : Nat} {t t' : Daemon.Task} {x : Part × Bool}
    (ht : tasks[i]? = some t) (hgrows : x ∈ t.did root → x ∈ t'.did root)
    (h : ∃ u ∈ tasks, x ∈ u.did root) : ∃ u ∈ tasks.set i t', x ∈ u.did root := by
  obtain ⟨u, hu, hx⟩ := h
  obtain ⟨j, hj⟩ := List.mem_iff_getElem?.mp hu
  obtain ⟨hi, -⟩ := List.getElem?_eq_some_iff.mp ht
  by_cases hij : i = j
  · subst hij
    rw [ht] at hj
    cases hj
    exact ⟨t', List.mem_set hi t', hgrows hx⟩
  · refine ⟨u, List.mem_iff_getElem?.mpr ⟨j, ?_⟩, hx⟩
    rw [List.getElem?_set_ne hij]
    exact hj

/-- A registry entry is still there after an event that does not change it. -/
theorem step_entry (h : sys.step a = some sys') (hmem : root ∈ sys.daemon.registry) :
    root ∈ sys'.daemon.registry ∨ ∃ b, sys.changes root a = some (.registry, b) := by
  have hholds : sys'.daemon.holds root .registry =
      (sys.written root .registry a).getD (sys.daemon.holds root .registry) :=
    step_holds .registry sys a sys' h
  cases hwritten : sys.written root .registry a with
  | none =>
    rw [hwritten] at hholds
    exact .inl ((decide_eq_decide.mp hholds).mpr hmem)
  | some b =>
    obtain ⟨x, hx, hon⟩ := Option.bind_eq_some_iff.mp hwritten
    unfold Daemon.onPart at hon
    split at hon
    · next hpart => exact .inr ⟨x.2, by rw [hx, ← hpart]⟩
    · cases hon

/-- One event keeps the account. -/
theorem step_accounts (sys : Tasks Peer) (a : TaskEvent Peer) (sys' : Tasks Peer)
    (cs : List (Part × Bool)) (h : sys.Accounts root cs) (hstep : sys.step a = some sys') :
    sys'.Accounts root (cs ++ (sys.changes root a).toList) := by
  -- an entry that stays is still there, or the registry has been changed
  have hstays (hentry : root ∈ sys.daemon.registry ∨ ∃ b, (.registry, b) ∈ cs) :
      root ∈ sys'.daemon.registry ∨ ∃ b, (.registry, b) ∈ cs ++ (sys.changes root a).toList := by
    rcases hentry with hmem | ⟨b, hb⟩
    · rcases step_entry hstep hmem with hthere | ⟨b, hb⟩
      · exact .inl hthere
      · exact .inr ⟨b, List.mem_append_right _ (by rw [hb]; exact List.mem_singleton_self _)⟩
    · exact .inr ⟨b, List.mem_append_left _ hb⟩
  have hkept (x : Part × Bool) (hx : x ∈ cs ∨ (x = (.registry, false) ∧
      (root ∈ sys.daemon.registry ∨ ∃ b, (.registry, b) ∈ cs))) :
      x ∈ cs ++ (sys.changes root a).toList ∨ (x = (.registry, false) ∧
        (root ∈ sys'.daemon.registry ∨
          ∃ b, (.registry, b) ∈ cs ++ (sys.changes root a).toList)) :=
    hx.imp (List.mem_append_left _) (And.imp_right hstays)
  rcases step_cases hstep root with ⟨i, t, t', ht, htasks, hadvances⟩ | ⟨hnone, htasks, -⟩
  · have htmem : t ∈ sys.tasks := List.mem_iff_getElem?.mpr ⟨i, ht⟩
    have hgrows (x : Part × Bool) (hx : x ∈ t.did root) : x ∈ t'.did root := by
      rcases hadvances.did with hdid | ⟨-, hdid, -⟩
      · exact hdid ▸ List.mem_append_left _ hx
      · exact hdid ▸ List.mem_append_left _ hx
    refine ⟨fun u hu x hx => ?_, fun x hx => ?_⟩
    · rw [htasks] at hu
      rcases List.mem_or_eq_of_mem_set hu with hold | rfl
      · exact hkept x (h.made u hold x hx)
      · rcases hadvances.did with hdid | ⟨-, hdid, hentry⟩
        · rcases List.mem_append.mp (hdid ▸ hx) with hold | hnew
          · exact hkept x (h.made t htmem x hold)
          · exact .inl (List.mem_append_right _ hnew)
        · rcases List.mem_append.mp (hdid ▸ hx) with hold | hnew
          · exact hkept x (h.made t htmem x hold)
          · exact .inr ⟨List.mem_singleton.mp hnew, hstays (.inl hentry)⟩
    · rw [htasks]
      rcases List.mem_append.mp hx with hold | hnew
      · exact exists_did_set ht (hgrows x) (h.source x hold)
      · obtain ⟨hi, -⟩ := List.getElem?_eq_some_iff.mp ht
        refine ⟨t', List.mem_set hi t', ?_⟩
        rcases hadvances.did with hdid | ⟨hnone, -, -⟩
        · exact hdid ▸ List.mem_append_right _ hnew
        · rw [hnone] at hnew
          cases hnew
  · refine ⟨fun u hu x hx => hkept x (h.made u (htasks ▸ hu) x hx), fun x hx => ?_⟩
    rw [hnone, Option.toList_none, List.append_nil] at hx
    exact htasks ▸ h.source x hx

omit [Blake3] [Ed25519] [RaptorQ] in
/-- What is said of one part is said of each of the three. -/
theorem mem_three {x y z p q : Part} {b b' : Bool} (hq : q = x ∨ q = y ∨ q = z)
    (h : (p, b) ∈ [(x, b'), (y, b'), (z, b')]) : (q, b) ∈ [(x, b'), (y, b'), (z, b')] := by
  obtain rfl : b = b' := by
    simp only [List.mem_cons, Prod.mk.injEq, List.not_mem_nil, or_false] at h
    rcases h with ⟨-, hb⟩ | ⟨-, hb⟩ | ⟨-, hb⟩
    · exact hb
    · exact hb
    · exact hb
  simp only [List.mem_cons, Prod.mk.injEq, List.not_mem_nil, or_false, and_true]
  exact hq

omit [Blake3] [Ed25519] [RaptorQ] [DecidableEq Peer] in
/-- A request that has succeeded has gone through all three changes. -/
theorem did_of_ok {t : Daemon.Task} (hok : t.result = some (.ok ())) {p : Part} {b : Bool}
    (h : (p, b) ∈ t.did root) (q : Part) : (q, b) ∈ t.did root := by
  cases t with
  | provided m =>
    rw [Daemon.Task.did] at h ⊢
    split at h
    · next heq =>
      rw [if_pos heq]
      exact mem_three (by cases q <;> simp) h
    · cases h
  | retired r =>
    rw [Daemon.Task.did] at h ⊢
    split at h
    · next heq =>
      rw [if_pos heq]
      exact mem_three (by cases q <;> simp) h
    · cases h
  | _ => cases hok

/-! ## When requests leave the daemon consistent -/

/-- What the last change to the part in a run was, if there was one. -/
def last (root : Hash) (sys : Tasks Peer) (actions : List (TaskEvent Peer)) (part : Part) :
    Option Bool :=
  (gathered step (written root part) sys actions).getLast?

variable {p : Peer} {w w' : Daemon Peer} {requests tasks : List Daemon.Task}
  {actions : List (TaskEvent Peer)}

/-- The last change is one of those that were made. -/
theorem mem_of_last {part : Part} {b : Bool} (h : last root sys actions part = some b) :
    (part, b) ∈ gathered step (changes root) sys actions := by
  have hmem := List.mem_of_getLast? h
  unfold written at hmem
  rw [gathered_filterMap] at hmem
  obtain ⟨x, hx, hon⟩ := List.mem_filterMap.mp hmem
  unfold Daemon.onPart at hon
  split at hon
  · next hpart =>
    cases hon
    exact hpart ▸ hx
  · cases hon

/-- Where a change to the part was made there is a last one. -/
theorem exists_last {part : Part} {b : Bool}
    (h : (part, b) ∈ gathered step (changes root) sys actions) :
    ∃ b', last root sys actions part = some b' := by
  have hmem : b ∈ gathered step (written root part) sys actions := by
    unfold written
    rw [gathered_filterMap]
    exact List.mem_filterMap.mpr ⟨_, h, if_pos rfl⟩
  exact ⟨_, List.getLast?_eq_getLast_of_ne_nil (List.ne_nil_of_mem hmem)⟩

/-- Every run of requests keeps the account. -/
theorem runs_accounts (hrequests : ∀ t ∈ requests, t.IsRequest)
    (hrun : runs step ⟨w, requests⟩ actions = some ⟨w', tasks⟩) :
    Accounts root ⟨w', tasks⟩ (gathered step (changes root) ⟨w, requests⟩ actions) :=
  runs_gathered (fun s a s' cs h (_ : True) hs => step_accounts s a s' cs h hs)
    (accounts_start hrequests w) (along_of_forall (fun _ _ => trivial) _ _) hrun

/-- The daemon has of a root what the last change to each part has made of it. -/
theorem runs_holds (hrun : runs step ⟨w, requests⟩ actions = some ⟨w', tasks⟩) (part : Part) :
    w'.holds root part =
      (last root ⟨w, requests⟩ actions part).getD (w.holds root part) :=
  runs_register (fun sys : Tasks Peer => sys.daemon.holds root part) (step_holds part) hrun

/-- Requests that all succeed leave the daemon consistent about a root if and only if the last
changes to the three parts were all made by `provide`s, or all by `unprovide`s, or there were none;
in every interleaving of the steps of any requests. -/
theorem requests_consistent_iff (hstart : w.Consistent p root)
    (hrequests : ∀ t ∈ requests, t.IsRequest)
    (hrun : runs step ⟨w, requests⟩ actions = some ⟨w', tasks⟩)
    (hok : ∀ t ∈ tasks, t.result = some (.ok ())) :
    w'.Consistent p root ↔
      last root ⟨w, requests⟩ actions .net = last root ⟨w, requests⟩ actions .registry ∧
        last root ⟨w, requests⟩ actions .registry =
          last root ⟨w, requests⟩ actions .announces := by
  have haccounts : Accounts root ⟨w', tasks⟩ _ := runs_accounts hrequests hrun
  have hholds (part : Part) : w'.holds root part =
      (last root ⟨w, requests⟩ actions part).getD (w.holds root part) := runs_holds hrun part
  rw [Daemon.consistent_iff] at hstart ⊢
  constructor
  · intro hconsistent
    by_cases hchanged : ∃ b, (.registry, b) ∈ gathered step (changes root) ⟨w, requests⟩ actions
    · obtain ⟨b, hb⟩ := hchanged
      obtain ⟨t, ht, hdid⟩ := haccounts.source _ hb
      have hlast (part : Part) : ∃ c, last root ⟨w, requests⟩ actions part = some c := by
        rcases haccounts.made t ht _ (did_of_ok (hok t ht) hdid part) with hmem | ⟨heq, -⟩
        · exact exists_last hmem
        · cases heq
          exact exists_last hb
      obtain ⟨c₁, hnet⟩ := hlast .net
      obtain ⟨c₂, hregistry⟩ := hlast .registry
      obtain ⟨c₃, hannounces⟩ := hlast .announces
      rw [hholds, hholds, hholds, hnet, hregistry, hannounces] at hconsistent
      rw [hnet, hregistry, hannounces]
      exact ⟨congrArg some hconsistent.1, congrArg some hconsistent.2⟩
    · -- no entry was written or removed: the requests, if any, passed over one that stays
      have hpassed {part : Part} {b : Bool}
          (h : (part, b) ∈ gathered step (changes root) ⟨w, requests⟩ actions) :
          b = false ∧ root ∈ w'.registry ∧
            ∀ q, q ≠ .registry → ∃ c, last root ⟨w, requests⟩ actions q = some c := by
        obtain ⟨t, ht, hdid⟩ := haccounts.source _ h
        have hall (q : Part) := haccounts.made t ht _ (did_of_ok (hok t ht) hdid q)
        rcases hall .registry with hmem | ⟨heq, hentry⟩
        · exact absurd ⟨b, hmem⟩ hchanged
        · refine ⟨(Prod.mk.inj heq).2, hentry.resolve_right hchanged, fun q hq => ?_⟩
          rcases hall q with hmem | ⟨heq, -⟩
          · exact exists_last hmem
          · exact absurd (Prod.mk.inj heq).1 hq
      have hnone (part : Part) : last root ⟨w, requests⟩ actions part = none := by
        rw [Option.eq_none_iff_forall_ne_some]
        intro b hb
        obtain ⟨-, hentry, hlast⟩ := hpassed (mem_of_last hb)
        obtain ⟨c, hc⟩ := hlast .net (by decide)
        obtain ⟨rfl, -, -⟩ := hpassed (mem_of_last hc)
        have hgone : w'.holds root .net = false := by rw [hholds, hc, Option.getD_some]
        have hthere : w'.holds root .registry = true := decide_eq_true hentry
        rw [hgone, hthere] at hconsistent
        exact Bool.false_ne_true hconsistent.1
      rw [hnone, hnone, hnone]
      exact ⟨rfl, rfl⟩
  · rintro ⟨hnet, hregistry⟩
    rw [hholds, hholds, hholds, hnet, hregistry]
    cases last root ⟨w, requests⟩ actions .announces with
    | none => exact hstart
    | some b => exact ⟨rfl, rfl⟩

end

end Tasks

/-! ## Two requests for one byte -/

/-- The content `x` is to be provided, and not to be provided any more. -/
def requestsOfX : List Daemon.Task :=
  [.provide (ascii "x.nptp"), .unprovide rootOfX.toHex]

/-- These tasks take their steps in this order. -/
def stepsOfX (order : List Nat) : List (TaskEvent Unit) := order.map fun i => .task i fsOfX

theorem daemonOfX_consistent :
    let _ := blake3OfX
    let _ := noSignatures
    let _ := oneSymbolCode
    daemonOfX.Consistent () rootOfX := by
  intro _ _ _
  rw [Daemon.consistent_iff]
  exact ⟨rfl, rfl⟩

/-- How the requests of `x` end in an order of their steps: what the parts have, and the results. -/
def endOfX (order : List Nat) :
    Option ((Bool × Bool × Bool) × List (Option (Except DaemonError Unit))) :=
  let _ := blake3OfX
  let _ := noSignatures
  let _ := oneSymbolCode
  (runs Tasks.step ⟨daemonOfX, requestsOfX⟩ (stepsOfX order)).map fun sys =>
    ((sys.daemon.holds rootOfX .net, sys.daemon.holds rootOfX .registry,
      sys.daemon.holds rootOfX .announces), sys.tasks.map Daemon.Task.result)

theorem requestsOfX_begin : ∀ t ∈ requestsOfX, t.IsRequest := by
  intro t ht
  rw [requestsOfX, List.mem_cons, List.mem_singleton] at ht
  rcases ht with rfl | rfl
  · trivial
  · trivial

/-- Where both have succeeded, the run and what its end has. -/
theorem runs_of_endOfX {order : List Nat} {net registry announces : Bool}
    (h : endOfX order = some ((net, registry, announces), [some (.ok ()), some (.ok ())])) :
    let _ := blake3OfX
    let _ := noSignatures
    let _ := oneSymbolCode
    ∃ w' tasks, runs Tasks.step ⟨daemonOfX, requestsOfX⟩ (stepsOfX order) = some ⟨w', tasks⟩ ∧
      (∀ t ∈ tasks, t.result = some (.ok ())) ∧ w'.holds rootOfX .net = net ∧
      w'.holds rootOfX .registry = registry ∧ w'.holds rootOfX .announces = announces := by
  intro _ _ _
  unfold endOfX at h
  obtain ⟨⟨w', tasks⟩, hrun, heq⟩ := Option.map_eq_some_iff.mp h
  simp only [Prod.mk.injEq] at heq
  obtain ⟨⟨hnet, hregistry, hannounces⟩, hresults⟩ := heq
  refine ⟨w', tasks, hrun, fun t ht => ?_, hnet, hregistry, hannounces⟩
  have hmem := List.mem_map_of_mem (f := Daemon.Task.result) ht
  rw [hresults] at hmem
  simpa using hmem

/-- The two requests in turn, a step of each: the `provide` comes last in every part, and leaves the
daemon consistent. -/
theorem requests_consistent_in_turn :
    let _ := blake3OfX
    let _ := noSignatures
    let _ := oneSymbolCode
    ∃ w' tasks, runs Tasks.step ⟨daemonOfX, requestsOfX⟩ (stepsOfX [1, 0, 1, 0, 1, 0, 0]) =
        some ⟨w', tasks⟩ ∧
      (∀ t ∈ tasks, t.result = some (.ok ())) ∧ w'.Consistent () rootOfX := by
  let _ := noSignatures
  have hend : endOfX [1, 0, 1, 0, 1, 0, 0] =
      some ((true, true, true), [some (.ok ()), some (.ok ())]) := by
    decide +kernel
  have hlast (part : Part) : @Tasks.last noSignatures Unit blake3OfX oneSymbolCode _ rootOfX
      ⟨daemonOfX, requestsOfX⟩ (stepsOfX [1, 0, 1, 0, 1, 0, 0]) part = some true := by
    cases part <;> decide +kernel
  intro _ _ _
  obtain ⟨w', tasks, hrun, hok, -⟩ := runs_of_endOfX hend
  refine ⟨w', tasks, hrun, hok, ?_⟩
  exact (Tasks.requests_consistent_iff daemonOfX_consistent requestsOfX_begin hrun hok).mpr
    ⟨(hlast .net).trans (hlast .registry).symm, (hlast .registry).trans (hlast .announces).symm⟩

/-- An `unprovide` between two steps of a `provide`: both succeed, and `status` lists a root that is
neither answered nor registered. -/
theorem requests_inconsistent_x :
    let _ := blake3OfX
    let _ := noSignatures
    let _ := oneSymbolCode
    daemonOfX.Consistent () rootOfX ∧ (∀ t ∈ requestsOfX, t.IsRequest) ∧
      ∃ w' tasks, runs Tasks.step ⟨daemonOfX, requestsOfX⟩ (stepsOfX [0, 0, 0, 1, 1, 1, 0]) =
          some ⟨w', tasks⟩ ∧
        (∀ t ∈ tasks, t.result = some (.ok ())) ∧ rootOfX ∈ w'.status ∧
        ¬ w'.Answers () rootOfX ∧ rootOfX ∉ w'.registry ∧ ¬ w'.Consistent () rootOfX := by
  let _ := noSignatures
  have hend : endOfX [0, 0, 0, 1, 1, 1, 0] =
      some ((false, false, true), [some (.ok ()), some (.ok ())]) := by
    decide +kernel
  intro _ _ _
  obtain ⟨w', tasks, hrun, hok, hnet, hregistry, hannounces⟩ := runs_of_endOfX hend
  have hunregistered : rootOfX ∉ w'.registry := of_decide_eq_false hregistry
  have hlisted : rootOfX ∈ w'.status := of_decide_eq_true hannounces
  have hunanswered : ¬ w'.Answers () rootOfX := by
    rw [Daemon.answers_iff]
    exact of_decide_eq_false hnet
  exact ⟨daemonOfX_consistent, requestsOfX_begin, w', tasks, hrun, hok, hlisted, hunanswered,
    hunregistered, fun h => hunregistered (h.2.mpr hlisted)⟩

end Np2ptp
