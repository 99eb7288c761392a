import Np2ptp.Core.Path

/-!
# Where a path leads

What `PathBuf::push` and a lexical normalisation on Unix make of a path, at the level of its
components. The writers split a checked path on `/` and push the fields one by one; the check reads
components. Both see the same names (`Relative.components_eq`), so a path that passes the check
leads strictly below whatever it is pushed onto (`Relative.destination_below`,
`Relative.push_below`).
-/

namespace Np2ptp

open Lib

/-! ## Pushing and normalising -/

/-- `PathBuf::push` on Unix: an absolute path replaces what is there. -/
def push (path comp : Bytes) : Bytes :=
  if comp.head? = some 47 then comp
  else if path = [] ∨ path.getLast? = some 47 then path ++ comp
  else path ++ 47 :: comp

/-- The fields of a relative path pushed one by one. -/
def destination (out rel : Bytes) : Bytes := (rel.splitOn 47).foldl push out

/-- One component more on a normalised path. A `..` takes back a name, and does nothing at the
root. -/
def normalStep (done : List Component) : Component → List Component
  | .curDir => done
  | .parentDir =>
    match done.getLast? with
    | some (.normal _) => done.dropLast
    | some .rootDir => done
    | _ => done ++ [.parentDir]
  | .rootDir => done ++ [.rootDir]
  | .normal name => done ++ [.normal name]

/-- Lexical normalisation. -/
def normalize (path : List Component) : List Component := path.foldl normalStep []

/-- After normalisation the path is the directory and one or more names below it. -/
def StrictlyBelow (dir path : Bytes) : Prop :=
  ∃ names : List Bytes, names ≠ [] ∧
    normalize (components path) = normalize (components dir) ++ names.map .normal

/-- Names below a path stay below it. -/
theorem normalize_append_normal (path : List Component) (names : List Bytes) :
    normalize (path ++ names.map .normal) = normalize path ++ names.map .normal := by
  unfold normalize
  rw [List.foldl_append]
  generalize path.foldl normalStep [] = done
  induction names generalizing done with
  | nil => rw [List.map_nil, List.foldl_nil, List.append_nil]
  | cons name names ih =>
    rw [List.map_cons, List.foldl_cons, ih]
    exact List.append_assoc _ _ _

theorem strictlyBelow_of_components {dir path : Bytes} {names : List Bytes} (hne : names ≠ [])
    (h : components path = components dir ++ names.map .normal) : StrictlyBelow dir path :=
  ⟨names, hne, by rw [h, normalize_append_normal]⟩

/-! ## Components of what is pushed -/

theorem components_eq {path field : Bytes} {fields : List Bytes}
    (h : path.splitOn 47 = field :: fields) : components path =
      (if path.head? = some 47 then [.rootDir]
        else if field = ascii "." then [.curDir] else fieldComponents field) ++
        fields.flatMap fieldComponents := by
  unfold components
  rw [h]

theorem exists_fields (path : Bytes) : ∃ field fields, path.splitOn 47 = field :: fields :=
  List.exists_cons_of_ne_nil (List.splitOn_ne_nil 47 path)

/-- What follows a slash is read field by field. -/
theorem components_append_slash (p q : Bytes) : components (p ++ 47 :: q) =
    components (p ++ [47]) ++ (q.splitOn 47).flatMap fieldComponents := by
  obtain ⟨f, fs, hp⟩ := exists_fields p
  have hlong : (p ++ 47 :: q).splitOn 47 = f :: (fs ++ q.splitOn 47) := by
    rw [List.splitOn_append_cons_self, hp, List.cons_append]
  have hshort : (p ++ [47]).splitOn 47 = f :: (fs ++ [[]]) := by
    rw [List.splitOn_append_cons_self, hp, List.cons_append, List.splitOn_nil]
  have hhead : (p ++ 47 :: q).head? = (p ++ [47]).head? := by cases p <;> rfl
  have hempty : fieldComponents [] = [] := rfl
  rw [components_eq hlong, components_eq hshort, hhead, List.flatMap_append, List.flatMap_append,
    List.flatMap_singleton, hempty, List.append_nil, List.append_assoc]

/-- A slash at the end names nothing. -/
theorem components_concat_slash {p : Bytes} (hne : p ≠ []) :
    components (p ++ [47]) = components p := by
  obtain ⟨f, fs, hp⟩ := exists_fields p
  have hlong : (p ++ [47]).splitOn 47 = f :: (fs ++ [[]]) := by
    rw [List.splitOn_append_cons_self, hp, List.cons_append, List.splitOn_nil]
  have hhead : (p ++ [47]).head? = p.head? := by
    cases p with
    | nil => exact absurd rfl hne
    | cons b p => rfl
  have hempty : fieldComponents [] = [] := rfl
  rw [components_eq hlong, components_eq hp, hhead, List.flatMap_append, List.flatMap_singleton,
    hempty, List.append_nil]

/-- Pushing a path that is not absolute adds its fields. -/
theorem components_push {path comp : Bytes} (hpath : path ≠ []) (hcomp : comp.head? ≠ some 47) :
    components (push path comp) =
      components path ++ (comp.splitOn 47).flatMap fieldComponents := by
  unfold push
  rw [if_neg hcomp]
  split
  · next h =>
    obtain ⟨p, rfl⟩ := List.getLast?_eq_some_iff.mp (h.resolve_left hpath)
    rw [List.append_assoc]
    exact components_append_slash p comp
  · rw [components_append_slash, components_concat_slash hpath]

theorem push_nil {comp : Bytes} : push [] comp = comp := by
  unfold push
  split
  · rfl
  · rw [if_pos (.inl rfl), List.nil_append]

theorem push_ne_nil {path comp : Bytes} (hpath : path ≠ []) : push path comp ≠ [] := by
  unfold push
  split
  · next h =>
    rintro rfl
    cases h
  · split <;> simp [hpath]

/-- Fields without slashes, pushed one by one. -/
theorem components_foldl_push {fields : List Bytes} (hfields : ∀ f ∈ fields, 47 ∉ f)
    {path : Bytes} (hpath : path ≠ []) :
    components (fields.foldl push path) = components path ++ fields.flatMap fieldComponents := by
  induction fields generalizing path with
  | nil => rw [List.foldl_nil, List.flatMap_nil, List.append_nil]
  | cons f fs ih =>
    have hf : 47 ∉ f := hfields f List.mem_cons_self
    have hhead : f.head? ≠ some 47 := fun h => hf (List.mem_of_mem_head? h)
    rw [List.foldl_cons, ih (fun g hg => hfields g (List.mem_cons_of_mem _ hg)) (push_ne_nil hpath),
      components_push hpath hhead, List.splitOn_eq_singleton hf, List.flatMap_cons,
      List.flatMap_cons, List.flatMap_nil, List.append_nil, List.append_assoc]

/-! ## Relative paths -/

/-- A path that is not empty and has names as its only components. -/
def Relative (path : Bytes) : Prop :=
  path ≠ [] ∧ ∀ c ∈ components path, ∃ name, c = .normal name

namespace Relative

variable {path : Bytes}

theorem head?_ne (h : Relative path) : path.head? ≠ some 47 := by
  intro hhead
  obtain ⟨f, fs, hp⟩ := exists_fields path
  have hc := components_eq hp
  rw [if_pos hhead] at hc
  obtain ⟨name, hname⟩ := h.2 .rootDir (by rw [hc]; exact List.mem_cons_self)
  cases hname

/-- The first field of a relative path is a name. -/
theorem first_field (h : Relative path) {f : Bytes} {fs : List Bytes}
    (hp : path.splitOn 47 = f :: fs) : f ≠ [] ∧ f ≠ ascii "." := by
  constructor
  · rintro rfl
    have hjoin : [47].intercalate (path.splitOn 47) = path := List.intercalate_splitOn 47
    rw [hp] at hjoin
    cases fs with
    | nil => exact h.1 (hjoin ▸ rfl)
    | cons g gs => exact h.head?_ne (hjoin ▸ rfl)
  · intro hdot
    have hc := Np2ptp.components_eq hp
    rw [if_neg h.head?_ne, if_pos hdot] at hc
    obtain ⟨name, hname⟩ := h.2 .curDir (by rw [hc]; exact List.mem_cons_self)
    cases hname

/-- The two views of a path: its components are what its fields name one by one, and there is at
least one. -/
theorem components_eq (h : Relative path) : ∃ names : List Bytes, names ≠ [] ∧
    components path = names.map .normal ∧
    (path.splitOn 47).flatMap fieldComponents = names.map .normal := by
  obtain ⟨f, fs, hp⟩ := exists_fields path
  obtain ⟨hf, hdot⟩ := h.first_field hp
  have hc := Np2ptp.components_eq hp
  rw [if_neg h.head?_ne, if_neg hdot] at hc
  have hfields : (path.splitOn 47).flatMap fieldComponents = components path := by
    rw [hp, List.flatMap_cons, hc]
  have hne : components path ≠ [] := by
    rw [hc]
    unfold fieldComponents
    rw [if_neg (not_or.mpr ⟨hf, hdot⟩)]
    split <;> exact List.cons_ne_nil _ _
  rw [hfields]
  have hall : ∀ cs : List Component, (∀ c ∈ cs, ∃ name, c = .normal name) →
      ∃ names : List Bytes, cs = names.map .normal := by
    intro cs hcs
    induction cs with
    | nil => exact ⟨[], rfl⟩
    | cons c cs ih =>
      obtain ⟨name, rfl⟩ := hcs c List.mem_cons_self
      obtain ⟨names, rfl⟩ := ih fun c hc => hcs c (List.mem_cons_of_mem _ hc)
      exact ⟨name :: names, rfl⟩
  obtain ⟨names, hnames⟩ := hall _ h.2
  refine ⟨names, ?_, hnames, hnames⟩
  rintro rfl
  exact hne hnames

/-- A path whose fields are all names. -/
theorem of_fields (h : ∀ f ∈ path.splitOn 47, f ≠ [] ∧ f ≠ ascii "." ∧ f ≠ ascii "..") :
    Relative path := by
  have hname {f : Bytes} (hf : f ∈ path.splitOn 47) : fieldComponents f = [.normal f] := by
    obtain ⟨hne, hdot, hup⟩ := h f hf
    unfold fieldComponents
    rw [if_neg (not_or.mpr ⟨hne, hdot⟩), if_neg hup]
  obtain ⟨f, fs, hp⟩ := exists_fields path
  have hf : f ∈ path.splitOn 47 := hp ▸ List.mem_cons_self
  have hhead : path.head? ≠ some 47 := by
    intro hhead
    obtain ⟨t, rfl⟩ := List.head?_eq_some_iff.mp hhead
    rw [List.splitOn_cons_eq_if_modifyHead, if_pos (beq_self_eq_true _)] at hp
    exact (h f hf).1 (List.cons.inj hp).1.symm
  refine ⟨?_, fun c hc => ?_⟩
  · rintro rfl
    exact (h f hf).1 (List.cons.inj hp).1.symm
  · rw [Np2ptp.components_eq hp, if_neg hhead, if_neg (h f hf).2.1, ← List.flatMap_cons, ← hp] at hc
    obtain ⟨g, hg, hc⟩ := List.mem_flatMap.mp hc
    rw [hname hg] at hc
    exact ⟨g, List.mem_singleton.mp hc⟩

/-- Joining a relative path to a directory leads below it. -/
theorem push_below (h : Relative path) (dir : Bytes) : StrictlyBelow dir (push dir path) := by
  obtain ⟨names, hne, hcomponents, hfields⟩ := h.components_eq
  refine strictlyBelow_of_components hne ?_
  by_cases hdir : dir = []
  · rw [hdir, push_nil, hcomponents]
    rfl
  · rw [components_push hdir h.head?_ne, hfields]

/-- Pushing the fields of a relative path one by one adds what they name. -/
theorem components_destination (h : Relative path) (out : Bytes) :
    components (destination out path) =
      components out ++ (path.splitOn 47).flatMap fieldComponents := by
  have hslash : ∀ field ∈ path.splitOn 47, (47 : UInt8) ∉ field := notMem_of_mem_splitOn path
  obtain ⟨f, fs, hp⟩ := exists_fields path
  obtain ⟨hf, hdot⟩ := h.first_field hp
  unfold destination
  by_cases hout : out = []
  · -- the first field then begins the path, as it does in the path itself
    rw [hp] at hslash ⊢
    have hcomp : components f = fieldComponents f := by
      have hsplit := List.splitOn_eq_singleton (hslash f List.mem_cons_self)
      have hhead : f.head? ≠ some 47 := fun hm =>
        hslash f List.mem_cons_self (List.mem_of_mem_head? hm)
      rw [Np2ptp.components_eq hsplit, if_neg hhead, if_neg hdot, List.flatMap_nil,
        List.append_nil]
    rw [hout, List.foldl_cons, push_nil,
      components_foldl_push (fun g hg => hslash g (List.mem_cons_of_mem _ hg)) hf, hcomp,
      ← List.flatMap_cons]
    rfl
  · rw [components_foldl_push hslash hout]

/-- Pushing the fields of a relative path one by one leads below it. -/
theorem destination_below (h : Relative path) (out : Bytes) :
    StrictlyBelow out (destination out path) := by
  obtain ⟨names, hne, hcomponents, hfields⟩ := h.components_eq
  refine strictlyBelow_of_components hne ?_
  rw [h.components_destination, hfields]

end Relative

/-! ## The check -/

/-- A name that the check has nothing against. -/
structure Portable (name : Bytes) : Prop where
  backslash : 92 ∉ name
  colon : 58 ∉ name
  dot : name.getLast? ≠ some 46
  space : name.getLast? ≠ some 32
  device : isWindowsReservedDevice name = false

instance (name : Bytes) : Decidable (Portable name) :=
  decidable_of_iff (92 ∉ name ∧ 58 ∉ name ∧ name.getLast? ≠ some 46 ∧ name.getLast? ≠ some 32 ∧
      isWindowsReservedDevice name = false)
    ⟨fun ⟨h₁, h₂, h₃, h₄, h₅⟩ => ⟨h₁, h₂, h₃, h₄, h₅⟩, fun h => ⟨h.1, h.2, h.3, h.4, h.5⟩⟩

/-- Rejecting one thing after the other. -/
theorem forM_eq_ok {ε α : Type*} {f : α → Except ε Unit} {l : List α} :
    l.forM f = .ok () ↔ ∀ a ∈ l, f a = .ok () := by
  induction l with
  | nil => exact iff_of_true rfl fun a ha => nomatch ha
  | cons a l ih =>
    have hcons : (a :: l).forM f = (f a >>= fun _ => l.forM f) := rfl
    rw [hcons, List.forall_mem_cons, ← ih]
    cases f a with
    | error e => exact iff_of_false nofun fun h => nomatch h.1
    | ok u => exact (and_iff_right rfl).symm

theorem toOption_eq_some {ε α : Type*} {x : Except ε α} {a : α} :
    x.toOption = some a ↔ x = .ok a := by
  cases x with
  | error e => exact iff_of_false nofun nofun
  | ok b =>
    refine ⟨fun h => ?_, fun h => ?_⟩
    · cases h
      rfl
    · cases h
      rfl

theorem bind_toOption_eq_some {ε α : Type*} {x : Option (Except ε α)} {a : α} :
    x.bind Except.toOption = some a ↔ x = some (.ok a) := by
  rw [Option.bind_eq_some_iff]
  simp only [toOption_eq_some, exists_eq_right]

theorem checkComponent_eq_ok {c : Component} (hslash : ∀ name, c = .normal name → 92 ∉ name) :
    checkComponent c = .ok () ↔ ∃ name, c = .normal name ∧ Portable name := by
  cases c with
  | normal name =>
    have hb := hslash name rfl
    unfold checkComponent
    dsimp only
    split
    · next h => exact iff_of_false nofun fun ⟨_, he, hp⟩ => by cases he; exact hp.colon h
    · next hcolon =>
      split
      · next h =>
        refine iff_of_false nofun fun ⟨_, he, hp⟩ => ?_
        cases he
        exact h.elim hp.dot hp.space
      · next hlast =>
        rw [not_or] at hlast
        split
        · next h =>
          refine iff_of_false nofun fun ⟨_, he, hp⟩ => ?_
          cases he
          rw [hp.device] at h
          cases h
        · next hdevice =>
          exact iff_of_true rfl
            ⟨name, rfl, hb, hcolon, hlast.1, hlast.2, eq_false_of_ne_true hdevice⟩
  | _ => exact iff_of_false nofun fun ⟨_, he, _⟩ => nomatch he

/-- A byte other than the slash is in one of the fields. -/
theorem mem_iff_mem_field {b : UInt8} (hb : b ≠ 47) (path : Bytes) :
    b ∈ path ↔ ∃ field ∈ path.splitOn 47, b ∈ field := by
  have hjoin : [47].intercalate (path.splitOn 47) = path := List.intercalate_splitOn 47
  conv_lhs => rw [← hjoin]
  generalize path.splitOn 47 = fields
  induction fields with
  | nil => simp [List.intercalate]
  | cons f fs ih =>
    cases fs with
    | nil => simp [List.intercalate]
    | cons g gs =>
      rw [intercalate_cons_cons, List.mem_append, List.mem_cons, ih, or_iff_right hb]
      simp only [List.mem_cons, exists_eq_or_imp]

/-- A name among the components is a field, not empty and not a dot. -/
theorem mem_fields_of_mem_components {path name : Bytes}
    (h : Component.normal name ∈ components path) :
    name ∈ path.splitOn 47 ∧ name ≠ [] ∧ name ≠ ascii "." := by
  have hfield {field : Bytes} (hc : Component.normal name ∈ fieldComponents field) :
      name = field ∧ name ≠ [] ∧ name ≠ ascii "." := by
    unfold fieldComponents at hc
    split at hc
    · cases hc
    · next hname =>
      split at hc
      · cases List.mem_singleton.mp hc
      · cases List.mem_singleton.mp hc
        exact ⟨rfl, not_or.mp hname⟩
  obtain ⟨f, fs, hp⟩ := exists_fields path
  rw [components_eq hp] at h
  rw [hp]
  rcases List.mem_append.mp h with hfirst | hrest
  · split at hfirst
    · cases List.mem_singleton.mp hfirst
    · split at hfirst
      · cases List.mem_singleton.mp hfirst
      · obtain ⟨rfl, hne⟩ := hfield hfirst
        exact ⟨List.mem_cons_self, hne⟩
  · obtain ⟨g, hg, hc⟩ := List.mem_flatMap.mp hrest
    obtain ⟨rfl, hne⟩ := hfield hc
    exact ⟨List.mem_cons_of_mem _ hg, hne⟩

/-- The names of a relative path are its fields, the empty ones and those that are a dot left
out. -/
theorem Relative.mem_components {path : Bytes} (h : Relative path) {name : Bytes} :
    Component.normal name ∈ components path ↔
      name ∈ path.splitOn 47 ∧ name ≠ [] ∧ name ≠ ascii "." := by
  refine ⟨mem_fields_of_mem_components, fun ⟨hfield, hne, hdot⟩ => ?_⟩
  obtain ⟨names, -, hcomponents, hfields⟩ := h.components_eq
  have hlisted : ∀ c ∈ fieldComponents name, c ∈ components path := by
    intro c hc
    rw [hcomponents, ← hfields]
    exact List.mem_flatMap.mpr ⟨name, hfield, hc⟩
  unfold fieldComponents at hlisted
  rw [if_neg (not_or.mpr ⟨hne, hdot⟩)] at hlisted
  split at hlisted
  · obtain ⟨n, he⟩ := h.2 .parentDir (hlisted _ List.mem_cons_self)
    cases he
  · exact hlisted _ List.mem_cons_self

/-- What the check accepts: relative paths with portable names. -/
theorem validateRelativePath_eq_ok {path : Bytes} : validateRelativePath path = .ok () ↔
    Relative path ∧ ∀ name, Component.normal name ∈ components path → Portable name := by
  unfold validateRelativePath
  split
  · next h => exact iff_of_false nofun fun hr => hr.1.1 h
  · next hne =>
    split
    · next hslash =>
      refine iff_of_false nofun fun ⟨hr, hnames⟩ => ?_
      obtain ⟨field, hfield, hm⟩ := (mem_iff_mem_field (by decide) path).mp hslash
      have hempty : field ≠ [] := by
        rintro rfl
        cases hm
      have hdot : field ≠ ascii "." := by
        rintro rfl
        exact absurd hm (by decide)
      exact (hnames field (hr.mem_components.mpr ⟨hfield, hempty, hdot⟩)).backslash hm
    · next hslash =>
      have hchecked : (components path).forM checkComponent = .ok () ↔
          ∀ c ∈ components path, ∃ name, c = .normal name ∧ Portable name := by
        rw [forM_eq_ok]
        refine forall₂_congr fun c hc => checkComponent_eq_ok ?_
        rintro name rfl hm
        exact hslash ((mem_iff_mem_field (by decide) path).mpr
          ⟨name, (mem_fields_of_mem_components hc).1, hm⟩)
      have hboth : (∀ c ∈ components path, ∃ name, c = .normal name ∧ Portable name) ↔
          Relative path ∧ ∀ name, Component.normal name ∈ components path → Portable name := by
        constructor
        · intro h
          refine ⟨⟨hne, fun c hc => ?_⟩, fun name hname => ?_⟩
          · obtain ⟨name, he, -⟩ := h c hc
            exact ⟨name, he⟩
          · obtain ⟨_, he, hp⟩ := h _ hname
            cases he
            exact hp
        · rintro ⟨hr, hnames⟩ c hc
          obtain ⟨name, rfl⟩ := hr.2 c hc
          exact ⟨name, rfl, hnames name hc⟩
      rw [← hboth, ← hchecked]
      cases he : (components path).forM checkComponent with
      | error e => exact Iff.rfl
      | ok u =>
        have hlength : (components path).length ≠ 0 := by
          obtain ⟨names, hnames, hc, -⟩ := (hboth.mp (hchecked.mp he)).1.components_eq
          rw [hc, List.length_map]
          exact fun h0 => hnames (List.length_eq_zero_iff.mp h0)
        exact iff_of_true (if_neg hlength) rfl

/-! ## Names that are not text -/

/-- The device names are ASCII. -/
theorem ascii_of_mem_reservedDevices : ∀ r ∈ reservedDevices, ∀ b ∈ r, b < 128 := by
  have hall : (reservedDevices.all fun r => r.all fun b => b < 128) = true := by decide
  simpa only [List.all_eq_true, decide_eq_true_eq] using hall

theorem upper_ascii {b : UInt8} (h : upper b < 128) : b < 128 := by
  unfold upper at h
  split at h
  · next hb => exact Nat.lt_of_le_of_lt hb.2 (by decide)
  · exact h

/-- What stands before the first dot of a lossy text. -/
theorem takeWhile_lossy (s : Bytes) :
    (lossy s).takeWhile (· != 46) = lossy (s.takeWhile (· != 46)) := by
  have hall {l : Bytes} (h : 46 ∉ l) : l.takeWhile (· != 46) = l :=
    List.takeWhile_eq_self_iff.mpr fun b hb => bne_iff_ne.mpr fun he => h (he ▸ hb)
  by_cases hm : 46 ∈ s
  · obtain ⟨u, v, rfl, hu⟩ := List.eq_append_cons_of_mem hm
    have hstem {x y : Bytes} (hx : 46 ∉ x) : (x ++ 46 :: y).takeWhile (· != 46) = x := by
      have hpos : ∀ b ∈ x, (b != 46) = true := fun b hb => bne_iff_ne.mpr fun he => hx (he ▸ hb)
      rw [List.takeWhile_append_of_pos hpos]
      simp
    rw [lossy_append_ascii (by decide), hstem hu,
      hstem fun h => hu ((mem_lossy_ascii (by decide)).mp h)]
  · rw [hall hm, hall fun h => hm ((mem_lossy_ascii (by decide)).mp h)]

/-- A device name is recognised in the lossy text as in the name itself. -/
theorem isWindowsReservedDevice_lossy (name : Bytes) :
    isWindowsReservedDevice (lossy name) = isWindowsReservedDevice name := by
  unfold isWindowsReservedDevice
  rw [takeWhile_lossy]
  generalize name.takeWhile (· != 46) = stem
  -- a stem that upper case makes one of the names is ASCII, so it is its own lossy text
  have hascii {t : Bytes} (h : t.map upper ∈ reservedDevices) : ∀ b ∈ t, b < 128 := fun b hb =>
    upper_ascii (ascii_of_mem_reservedDevices _ h _ (List.mem_map_of_mem hb))
  rw [Bool.eq_iff_iff, List.contains_iff_mem, List.contains_iff_mem]
  constructor
  · intro h
    rwa [← (lossy_eq_ascii (hascii h)).mp rfl] at h
  · intro h
    rwa [(lossy_eq_ascii (hascii h)).mpr rfl]

/-- A name is portable when its lossy text is. -/
theorem portable_lossy {name : Bytes} : Portable (lossy name) ↔ Portable name := by
  have hmem {b : UInt8} (hb : b < 128) : b ∉ lossy name ↔ b ∉ name :=
    not_congr (mem_lossy_ascii hb)
  have hlast {b : UInt8} (hb : b < 128) :
      (lossy name).getLast? ≠ some b ↔ name.getLast? ≠ some b := not_congr (getLast?_lossy_ascii hb)
  have hdevice := isWindowsReservedDevice_lossy name
  constructor
  · intro h
    exact ⟨(hmem (by decide)).mp h.backslash, (hmem (by decide)).mp h.colon,
      (hlast (by decide)).mp h.dot, (hlast (by decide)).mp h.space, hdevice ▸ h.device⟩
  · intro h
    exact ⟨(hmem (by decide)).mpr h.backslash, (hmem (by decide)).mpr h.colon,
      (hlast (by decide)).mpr h.dot, (hlast (by decide)).mpr h.space, hdevice.symm ▸ h.device⟩

/-- The check of a lossy path, said of the fields it was made of. -/
theorem validateRelativePath_lossy {path : Bytes} (h : Relative (lossy path)) :
    validateRelativePath (lossy path) = .ok () ↔
      ∀ field ∈ path.splitOn 47, field = [] ∨ field = ascii "." ∨ Portable field := by
  have hempty (field : Bytes) : lossy field = [] ↔ field = [] := lossy_eq_nil
  have hdot (field : Bytes) : lossy field = ascii "." ↔ field = ascii "." :=
    lossy_eq_ascii (ascii_lt (by decide))
  rw [validateRelativePath_eq_ok, and_iff_right h]
  simp only [h.mem_components, splitOn_lossy (show (47 : UInt8) < 128 by decide), List.mem_map]
  constructor
  · intro hnames field hfield
    refine or_iff_not_imp_left.mpr fun hne => or_iff_not_imp_left.mpr fun hnd => ?_
    refine portable_lossy.mp (hnames (lossy field) ⟨⟨field, hfield, rfl⟩, ?_, ?_⟩)
    · exact fun he => hne ((hempty field).mp he)
    · exact fun he => hnd ((hdot field).mp he)
  · rintro hfields _ ⟨⟨field, hfield, rfl⟩, hne, hnd⟩
    rcases hfields field hfield with rfl | rfl | hp
    · exact absurd rfl hne
    · exact absurd ((hdot _).mpr rfl) hnd
    · exact portable_lossy.mpr hp

end Np2ptp
