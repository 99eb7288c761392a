import Np2ptp.Lib.Text

/-!
# The stem and the extension of a file name

A file name is cut at its last full stop, as `std::path::Path` does it: a name without one has no
extension, and neither has one that begins with its only full stop.
-/

namespace Np2ptp.Lib

/-- The full stop of a file name. -/
def DOT : UInt8 := 46

/-- The two parts of a file name, where it has them. -/
def rsplitFileAtDot (file : Bytes) : Option Bytes × Option Bytes :=
  if file = [DOT, DOT] then (some file, none)
  else
    let after := (file.reverse.takeWhile fun b => b ≠ DOT).reverse
    match file.reverse.dropWhile fun b => b ≠ DOT with
    | [] => (none, some after)
    | [_] => (some file, none)
    | _ :: before => (some before.reverse, some after)

/-- `Path::file_stem` of a file name. -/
def fileStem (file : Bytes) : Option Bytes := (rsplitFileAtDot file).1.or (rsplitFileAtDot file).2

/-- `Path::extension` of a file name. -/
def extension (file : Bytes) : Option Bytes :=
  (rsplitFileAtDot file).1.bind fun _ => (rsplitFileAtDot file).2

/-- `Path::with_extension` of a file name. -/
def withExtension (file ext : Bytes) : Bytes := (fileStem file).getD [] ++ DOT :: ext

/-- A name is cut at a full stop that no other follows. -/
theorem rsplitFileAtDot_append {before after : Bytes} (hbefore : before ≠ []) (hafter : DOT ∉ after)
    (hne : after ≠ []) :
    rsplitFileAtDot (before ++ DOT :: after) = (some before, some after) := by
  have hplain : before ++ DOT :: after ≠ [DOT, DOT] := by
    intro h
    have hlast := congrArg List.getLast? h
    rw [List.getLast?_append_cons, List.getLast?_cons_of_ne_nil hne] at hlast
    exact hafter (List.mem_of_getLast? hlast)
  have hreverse : (before ++ DOT :: after).reverse = after.reverse ++ DOT :: before.reverse := by
    simp
  have hall : ∀ b ∈ after.reverse, decide (b ≠ DOT) = true := by
    intro b hb
    exact decide_eq_true fun h => hafter (h ▸ List.mem_reverse.mp hb)
  rw [rsplitFileAtDot, if_neg hplain, hreverse, List.takeWhile_append_of_pos hall,
    List.dropWhile_append_of_pos hall]
  rw [List.takeWhile_cons_of_neg (by simp), List.dropWhile_cons_of_neg (by simp), List.append_nil,
    List.reverse_reverse]
  cases hb : before.reverse with
  | nil => exact absurd (List.reverse_eq_nil_iff.mp hb) hbefore
  | cons b bs =>
    dsimp only
    rw [← hb, List.reverse_reverse]

theorem extension_append {before after : Bytes} (hbefore : before ≠ []) (hafter : DOT ∉ after)
    (hne : after ≠ []) : extension (before ++ DOT :: after) = some after := by
  rw [extension, rsplitFileAtDot_append hbefore hafter hne]
  rfl

end Np2ptp.Lib
