import Mathlib.Data.List.Nodup
import Np2ptp.Core.Nptp
import Np2ptp.Lib.FileName
import Np2ptp.Lib.Staged

/-!
# The registry of manifests

`serve_set.rs`: `register_manifest` stages a manifest under a name of its own and renames it to
`manifests/<root>.nptp`, `unprovide` removes that file, and `collect_serve_manifests` reads them all
for `serve --all`. Any number of processes do so at the same time, on a disk that may lose power:
what is collected are then manifests that were registered, each once and under its own root, and
no entry fails to decode (`collected_were_registered`).
-/

namespace Np2ptp

open Lib

/-! ## Entries -/

/-- The extension of a manifest's file. -/
def NPTP : Bytes := ascii "nptp"

/-- `manifests/<root>.nptp`. -/
def registryPath (root : Hash) : Bytes := root.toHex ++ DOT :: NPTP

/-- The name under which a process stages an entry, `n` being the value of `TMP_COUNTER`. -/
def registryTmp (root : Hash) (pid n : Nat) : Bytes :=
  registryPath root ++ DOT :: (ascii "tmp-" ++ (decimal pid ++ 45 :: decimal n))

/-- The names under which a process stages with a value of its counter. -/
def RegistryNames (i : Nat × Nat) (p : Bytes) : Prop := ∃ root, p = registryTmp root i.1 i.2

theorem length_registryPath (root : Hash) : (registryPath root).length = 69 := by
  rw [registryPath, List.length_append, root.toHex_length]
  rfl

theorem registryPath_inj {root root' : Hash} (h : registryPath root = registryPath root') :
    root = root' := by
  have hhex := List.append_cancel_right h
  have hback := congrArg Hash.fromHex hhex
  rwa [Hash.fromHex_toHex, Hash.fromHex_toHex, Option.some.injEq] at hback

/-- Staging names tell processes and counters apart. -/
theorem registryNames_inj (i j : Nat × Nat) (p : Bytes) (hi : RegistryNames i p)
    (hj : RegistryNames j p) : i = j := by
  obtain ⟨root, rfl⟩ := hi
  obtain ⟨root', h⟩ := hj
  have htail := (List.append_inj h (by rw [length_registryPath, length_registryPath])).2
  have hnumbers := List.append_cancel_left (List.cons.inj htail).2
  have hdash (n : Nat) : (45 : UInt8) ∉ decimal n := notMem_decimal rfl n
  obtain ⟨hpid, -, hn⟩ := (List.append_cons_inj_of_notMem (hdash _) (hdash _)).mp hnumbers
  exact Prod.ext (decimal_inj hpid) (decimal_inj hn)

theorem extension_registryPath (root : Hash) : extension (registryPath root) = some NPTP := by
  refine extension_append (fun h => ?_) (by decide) (by decide)
  have hlength := root.toHex_length
  rw [h] at hlength
  cases hlength

/-- A file with the extension of a manifest is none that is staged. -/
theorem not_staging_of_extension {p : Bytes} (h : extension p = some NPTP) :
    ¬ Folder.Staging RegistryNames p := by
  rintro ⟨i, root, rfl⟩
  have hplain : DOT ∉ ascii "tmp-" ++ (decimal i.1 ++ 45 :: decimal i.2) := by
    have hdigits (n : Nat) : DOT ∉ decimal n := notMem_decimal rfl n
    simp only [List.mem_append, List.mem_cons, not_or]
    exact ⟨by decide, hdigits _, by decide, hdigits _⟩
  have hne : registryPath root ≠ [] := by
    intro hnil
    have hlength := length_registryPath root
    rw [hnil] at hlength
    cases hlength
  rw [registryTmp, extension_append hne hplain (by simp [ascii]), Option.some.injEq] at h
  have hfirst := congrArg List.head? h
  exact absurd hfirst (by simp [NPTP, ascii])

/-! ## Registering -/

/-- What the processes of a store do in its registry: they register manifests, and remove entries
when these are not provided any more. -/
def Registers : Folder.Act (Nat × Nat) Bytes → Prop
  | .create i tmp target content => ∃ m : Manifest, m.Representable ∧
      tmp = registryTmp m.root i.1 i.2 ∧ target = registryPath m.root ∧ content = m.toNptp
  | .remove p => ∃ root, p = registryPath root
  | .move _ _ => False
  | _ => True

/-- What may be in a file of the registry: a manifest under its root. -/
def RegistryMay (p bytes : Bytes) : Prop :=
  extension p = some NPTP → ∃ m : Manifest, m.Representable ∧ p = registryPath m.root ∧
    bytes = m.toNptp

theorem Registers.acts {a : Folder.Act (Nat × Nat) Bytes} (h : Registers a) :
    Folder.Acts RegistryNames RegistryMay a := by
  cases a with
  | create i tmp target content =>
    obtain ⟨m, hm, rfl, rfl, rfl⟩ := h
    exact ⟨⟨m.root, rfl⟩, not_staging_of_extension (extension_registryPath _),
      fun _ => ⟨m, hm, rfl, rfl⟩⟩
  | remove p =>
    obtain ⟨root, rfl⟩ := h
    exact not_staging_of_extension (extension_registryPath _)
  | move p q => exact h.elim
  | _ => trivial

/-! ## Collecting -/

/-- Why there is nothing to serve. -/
inductive ServeError where
  | invalidUsage (message : String)
  | io
  | manifest (e : ManifestError)
  deriving DecidableEq

/-- An entry of the directory listing: an entry that cannot be listed is an error; one of another
kind is passed over, one that cannot be read or decoded is skipped. -/
def collectEntry (readEntry : Bytes → Option Bytes) (st : List Manifest × Nat) :
    Option Bytes → Except ServeError (List Manifest × Nat)
  | none => .error .io
  | some name =>
    if extension name = some NPTP then
      match readEntry name with
      | none => .ok (st.1, st.2 + 1)
      | some bytes =>
        match Manifest.fromNptp bytes with
        | .ok m => .ok (st.1 ++ [m], st.2)
        | .error _ => .ok (st.1, st.2 + 1)
    else .ok st

/-- The files given on the command line. -/
def collectPaths (read : Bytes → Option Bytes) : List Bytes → Except ServeError (List Manifest)
  | [] => .ok []
  | p :: paths =>
    match read p with
    | none => .error .io
    | some bytes =>
      match Manifest.fromNptp bytes with
      | .error e => .error (.manifest e)
      | .ok m => (collectPaths read paths).map (m :: ·)

/-- `collect_serve_manifests`: `listing` is what `read_dir` gives for the registry `dir`, if it
does. -/
def collectServeManifests (read : Bytes → Option Bytes) (dir : String)
    (listing : Option (List (Option Bytes))) (readEntry : Bytes → Option Bytes)
    (paths : List Bytes) (all : Bool) : Except ServeError (List Manifest) :=
  if all ∧ paths ≠ [] then
    .error (.invalidUsage "serve: --all and explicit paths are mutually exclusive")
  else if ¬ all then
    if paths = [] then
      .error (.invalidUsage "serve: no manifest given (pass a .nptp path or --all)")
    else collectPaths read paths
  else
    match (listing.getD []).foldlM (collectEntry readEntry) ([], 0) with
    | .error e => .error e
    | .ok (out, skipped) =>
      if out = [] then
        .error (.invalidUsage (if 0 < skipped then
          "serve --all: no registered manifests in " ++ dir ++ " (" ++ toString skipped ++
            " entries skipped, see warnings above)"
        else "serve --all: no registered manifests in " ++ dir))
      else .ok out

/-- The entries that are read. -/
def readEntries (readEntry : Bytes → Option Bytes) (names : List Bytes) : List Bytes :=
  names.filter fun name => extension name = some NPTP ∧ (readEntry name).isSome

/-- The entries that cannot be read. -/
def skippedEntries (readEntry : Bytes → Option Bytes) (names : List Bytes) : List Bytes :=
  names.filter fun name => extension name = some NPTP ∧ (readEntry name).isNone

/-- Where what is read of an entry is a manifest under its root, none is skipped for what it
holds. -/
theorem foldlM_collectEntry {readEntry : Bytes → Option Bytes} {names : List Bytes}
    (hmay : ∀ name ∈ names, ∀ bytes, readEntry name = some bytes → RegistryMay name bytes)
    (st : List Manifest × Nat) : ∃ out,
      (names.map some).foldlM (collectEntry readEntry) st =
        .ok (st.1 ++ out, st.2 + (skippedEntries readEntry names).length) ∧
      out.map (fun m => registryPath m.root) = readEntries readEntry names ∧
      ∀ m ∈ out, readEntry (registryPath m.root) = some m.toNptp := by
  induction names generalizing st with
  | nil =>
    refine ⟨[], ?_, rfl, fun _ hm => absurd hm List.not_mem_nil⟩
    rw [List.append_nil]
    rfl
  | cons name names ih =>
    have ih := ih fun n hn => hmay n (List.mem_cons_of_mem _ hn)
    by_cases hext : extension name = some NPTP
    · cases hread : readEntry name with
      | none =>
        have hentry : collectEntry readEntry st (some name) = .ok (st.1, st.2 + 1) := by
          simp only [collectEntry, if_pos hext, hread]
        have hskips : skippedEntries readEntry (name :: names) =
            name :: skippedEntries readEntry names :=
          List.filter_cons_of_pos (by simp [hext, hread])
        obtain ⟨out, hfold, hout, hreads⟩ := ih (st.1, st.2 + 1)
        refine ⟨out, ?_, ?_, hreads⟩
        · rw [List.map_cons, List.foldlM_cons, hentry, hskips, List.length_cons, ← Nat.add_assoc,
            Nat.add_right_comm]
          exact hfold
        · rw [hout, readEntries, readEntries, List.filter_cons_of_neg (by simp [hread])]
      | some bytes =>
        obtain ⟨m, hm, rfl, rfl⟩ := hmay name List.mem_cons_self bytes hread hext
        have hdecode := Manifest.fromNptp_toNptp hm []
        rw [List.append_nil] at hdecode
        have hentry : collectEntry readEntry st (some (registryPath m.root)) =
            .ok (st.1 ++ [m], st.2) := by
          simp only [collectEntry, if_pos hext, hread, hdecode]
        have hskips : skippedEntries readEntry (registryPath m.root :: names) =
            skippedEntries readEntry names := List.filter_cons_of_neg (by simp [hread])
        obtain ⟨out, hfold, hout, hreads⟩ := ih (st.1 ++ [m], st.2)
        refine ⟨m :: out, ?_, ?_, ?_⟩
        · rw [List.map_cons, List.foldlM_cons, hentry, hskips]
          rw [List.append_assoc] at hfold
          exact hfold
        · rw [List.map_cons, hout, readEntries, readEntries,
            List.filter_cons_of_pos (by simp [hread, extension_registryPath])]
        · intro m' hm'
          rcases List.mem_cons.mp hm' with rfl | hm'
          · exact hread
          · exact hreads m' hm'
    · have hentry : collectEntry readEntry st (some name) = .ok st := by
        simp only [collectEntry, if_neg hext]
      have hskips : skippedEntries readEntry (name :: names) = skippedEntries readEntry names :=
        List.filter_cons_of_neg (by simp [hext])
      obtain ⟨out, hfold, hout, hreads⟩ := ih st
      refine ⟨out, ?_, ?_, hreads⟩
      · rw [List.map_cons, List.foldlM_cons, hentry, hskips]
        exact hfold
      · rw [hout, readEntries, readEntries, List.filter_cons_of_neg (by simp [hext])]

/-! ## Every history of the registry -/

variable {w w' : Folder (Nat × Nat) Bytes} {as : List (Folder.Act (Nat × Nat) Bytes)}

/-- Registering is what writers with names of their own do. -/
theorem along_acts (hok : ∀ a ∈ as, Registers a) :
    Along Folder.step (fun _ a => Folder.Acts RegistryNames RegistryMay a) w as :=
  (along_of_mem w hok).mono fun _ _ => Registers.acts

/-- What is read under the root of a manifest was there at first, or a process registered it. -/
theorem registered_of_value (h : w.Sound RegistryNames RegistryMay) (hpast : w.past = [])
    (hidle : ∀ i, w.writers i = none) (hok : ∀ a ∈ as, Registers a)
    (hrun : runs Folder.step w as = some w') {m : Manifest}
    (hvalue : w'.value (registryPath m.root) = some m.toNptp) :
    w.value (registryPath m.root) = some m.toNptp ∨
      ∃ i tmp, .create i tmp (registryPath m.root) m.toNptp ∈ as := by
  obtain ⟨-, hapart⟩ := h.kept registryNames_inj (along_acts hok) hrun
  rcases Folder.reads_created h.neat hidle hapart hrun
    (not_staging_of_extension (extension_registryPath _))
    (by rw [hpast]; exact fun _ hdir => absurd hdir List.not_mem_nil)
    (fun q hmem => (hok _ hmem).elim) with hfirst | ⟨hnone, -⟩ | ⟨i, tmp, content, hmem, hcontent⟩
  · exact .inl (hfirst ▸ hvalue)
  · rw [hvalue] at hnone
    cases hnone
  · rw [hvalue, Option.some.injEq] at hcontent
    exact .inr ⟨i, tmp, hcontent ▸ hmem⟩

/-- The registry holds what was registered. Processes register and remove manifests at the same
time, stop anywhere, and the power may fail; each entry is read at some time on the way. Then no
entry fails to decode, every manifest that is collected is one that was registered under its root or
was there at the start, and no root comes twice. While the power is on, an entry holds what was
renamed into place or removed last. -/
theorem collected_were_registered (hpast : w.past = []) (hidle : ∀ i, w.writers i = none)
    (hsynced : ∀ p x, w.files p = some x → x.synced = true)
    (hmay : ∀ p x, w.files p = some x → RegistryMay p x.bytes) (hok : ∀ a ∈ as, Registers a)
    (hrun : runs Folder.step w as = some w') :
    (∀ (read : Bytes → Option Bytes) (dir : String) (names : List Bytes)
        (readEntry : Bytes → Option Bytes), names.Nodup →
      (∀ name ∈ names, ∀ bytes, readEntry name = some bytes → ∃ before after v,
        as = before ++ after ∧ runs Folder.step w before = some v ∧ v.value name = some bytes) →
      ∃ out, collectServeManifests read dir (some (names.map some)) readEntry [] true =
          (if out = [] then .error (.invalidUsage
            (if 0 < (skippedEntries readEntry names).length then
              "serve --all: no registered manifests in " ++ dir ++ " (" ++
                toString (skippedEntries readEntry names).length ++
                " entries skipped, see warnings above)"
            else "serve --all: no registered manifests in " ++ dir)) else .ok out) ∧
        out.map (fun m => registryPath m.root) = readEntries readEntry names ∧
        (out.map fun m => m.root).Nodup ∧
        ∀ m ∈ out, w.value (registryPath m.root) = some m.toNptp ∨
          ∃ i tmp, .create i tmp (registryPath m.root) m.toNptp ∈ as) ∧
    ((∀ a ∈ as, a.Powered) → ∀ root, w'.value (registryPath root) =
      (gathered Folder.step (Folder.puts (registryPath root)) w as).getLast?.getD
        (w.value (registryPath root))) := by
  have hsound : w.Sound RegistryNames RegistryMay :=
    Folder.sound_quiet hpast hidle hsynced fun p x _ hx => hmay p x hx
  constructor
  · intro read dir names readEntry hnodup hread
    have hentries : ∀ name ∈ names, ∀ bytes, readEntry name = some bytes →
        RegistryMay name bytes := by
      intro name hname bytes hbytes hext
      obtain ⟨before, after, v, rfl, hv, hvalue⟩ := hread name hname bytes hbytes
      obtain ⟨x, hx, rfl⟩ := Option.map_eq_some_iff.mp hvalue
      have hv' := (hsound.kept registryNames_inj (along_acts hok).left hv).1
      exact hv'.holds _ List.mem_cons_self name x (not_staging_of_extension hext) hx hext
    obtain ⟨out, hfold, hout, hreads⟩ := foldlM_collectEntry hentries ([], 0)
    rw [List.nil_append, Nat.zero_add] at hfold
    refine ⟨out, ?_, hout, ?_, fun m hm => ?_⟩
    · rw [collectServeManifests, if_neg (fun h => h.2 rfl), if_neg (by simp), Option.getD_some,
        hfold]
    · have hpaths : (out.map fun m => registryPath m.root).Nodup := hout ▸ hnodup.filter _
      exact List.Nodup.of_map registryPath (by rwa [List.map_map])
    · have hname : registryPath m.root ∈ names := by
        have hmem := List.mem_map_of_mem (f := fun m : Manifest => registryPath m.root) hm
        rw [hout] at hmem
        exact (List.mem_filter.mp hmem).1
      obtain ⟨before, after, v, rfl, hv, hvalue⟩ := hread _ hname _ (hreads m hm)
      rcases registered_of_value hsound hpast hidle
        (fun a ha => hok a (List.mem_append_left _ ha)) hv hvalue with hfirst | ⟨i, tmp, hcreate⟩
      · exact .inl hfirst
      · exact .inr ⟨i, tmp, List.mem_append_left _ hcreate⟩
  · intro hpower root
    have hapart := (hsound.kept registryNames_inj (along_acts hok) hrun).2
    exact Folder.reads_last hsound.neat hapart hpower hrun
      (not_staging_of_extension (extension_registryPath _))

/-- A named manifest of one file and one chunk. -/
def entryOfX : Manifest := ⟨rootOfX, 1, [⟨digestOfX, 0, 1⟩], [⟨dataPath, 1, 0, 1⟩], some dataPath⟩

/-- Two processes register it at the same time, and the second one stops on the way. -/
def twoRegistrations : List (Folder.Act (Nat × Nat) Bytes) :=
  let register (pid : Nat) : Folder.Act (Nat × Nat) Bytes :=
    .create (pid, 0) (registryTmp rootOfX pid 0) (registryPath rootOfX) entryOfX.toNptp
  [register 10, register 11, .write (10, 0) 1000, .write (11, 0) 20, .sync (10, 0), .rename (10, 0),
    .abandon (11, 0)]

/-- One entry is collected. -/
theorem two_registrations_collected :
    ∃ w', runs Folder.step ⟨fun _ => none, [], fun _ => none⟩ twoRegistrations = some w' ∧
      ∃ out, collectServeManifests (fun _ => none) "manifests"
          (some ([registryPath rootOfX].map some)) w'.value [] true = .ok out ∧
        out.map (fun m => registryPath m.root) = [registryPath rootOfX] := by
  have hview : (runs Folder.step ⟨fun _ => none, [], fun _ => none⟩ twoRegistrations).map
      (fun w => w.value (registryPath rootOfX)) = some (some entryOfX.toNptp) := by
    decide +kernel
  obtain ⟨w', hrun, hvalue⟩ := Option.map_eq_some_iff.mp hview
  have hok : ∀ a ∈ twoRegistrations, Registers a := by
    have hm : entryOfX.Representable := by
      refine ⟨by decide, by decide, ?_, ?_⟩ <;> decide
    simp only [twoRegistrations, List.forall_mem_cons, List.not_mem_nil, false_implies,
      implies_true, and_true]
    exact ⟨⟨entryOfX, hm, rfl, rfl, rfl⟩, ⟨entryOfX, hm, rfl, rfl, rfl⟩, trivial, trivial, trivial,
      trivial, trivial⟩
  obtain ⟨out, hcollect, hout, -, -⟩ := (collected_were_registered rfl (fun _ => rfl)
    (fun _ _ h => (by cases h)) (fun _ _ h => (by cases h)) hok hrun).1 (fun _ => none) "manifests"
    [registryPath rootOfX] w'.value (List.nodup_singleton _) fun name _ bytes hbytes =>
      ⟨twoRegistrations, [], w', (List.append_nil _).symm, hrun, hbytes⟩
  have hentries : readEntries w'.value [registryPath rootOfX] = [registryPath rootOfX] :=
    List.filter_cons_of_pos (by simp [extension_registryPath, hvalue])
  rw [hentries] at hout
  refine ⟨w', hrun, out, ?_, hout⟩
  rw [hcollect, if_neg]
  rintro rfl
  cases hout

end Np2ptp
