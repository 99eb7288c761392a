import Np2ptp.Lib.Utf8

/-!
# Relative paths of a manifest

`np2ptp-core/src/path.rs`. A manifest's paths come from a peer and decide where bytes land;
`validateRelativePath` is the one gate in front of every writer. The components of a path are
those of `std::path::Path` on Unix: empty fields are skipped, a `.` is kept at the front only. The
checks look at ASCII bytes alone, so the bytes of a text stand for its characters.
-/

namespace Np2ptp

open Lib

/-- `std::path::Component` on Unix. -/
inductive Component where
  | rootDir
  | curDir
  | parentDir
  | normal (name : Bytes)
  deriving DecidableEq

/-- One field between slashes, not the first. -/
def fieldComponents (field : Bytes) : List Component :=
  if field = [] ∨ field = ascii "." then []
  else if field = ascii ".." then [.parentDir]
  else [.normal field]

/-- `Path::components` on Unix. -/
def components (path : Bytes) : List Component :=
  match path.splitOn 47 with
  | [] => []
  | field :: fields =>
    (if path.head? = some 47 then [.rootDir]
      else if field = ascii "." then [.curDir] else fieldComponents field) ++
      fields.flatMap fieldComponents

/-- ASCII upper case of a byte. -/
def upper (b : UInt8) : UInt8 := if 97 ≤ b ∧ b ≤ 122 then b - 32 else b

def reservedDevices : List Bytes :=
  ["CON", "PRN", "AUX", "NUL",
    "COM1", "COM2", "COM3", "COM4", "COM5", "COM6", "COM7", "COM8", "COM9",
    "LPT1", "LPT2", "LPT3", "LPT4", "LPT5", "LPT6", "LPT7", "LPT8", "LPT9",
    "$MFT", "$MFTMIRR", "$LOGFILE", "$VOLUME", "$ATTRDEF", "$BITMAP",
    "$BOOT", "$BADCLUS", "$SECURE", "$UPCASE", "$EXTEND", "$QUOTA",
    "$OBJID", "$REPARSE"].map ascii

/-- `is_windows_reserved_device`: what stands before the first dot, in upper case. -/
def isWindowsReservedDevice (name : Bytes) : Bool :=
  reservedDevices.contains ((name.takeWhile (· != 46)).map upper)

/-- The body of the loop of `validate_relative_path`. -/
def checkComponent : Component → Except String Unit
  | .normal name =>
    if 58 ∈ name then .error "path component must not contain ':'"
    else if name.getLast? = some 46 ∨ name.getLast? = some 32 then
      .error "path component ends with '.' or ' '"
    else if isWindowsReservedDevice name then .error "path uses a reserved Windows device name"
    else .ok ()
  | _ => .error "path must be relative, without '.' or '..'"

/-- `validate_relative_path`. -/
def validateRelativePath (path : Bytes) : Except String Unit :=
  if path = [] then .error "path must not be empty"
  else if 92 ∈ path then .error "path must not contain backslashes"
  else
    match (components path).forM checkComponent with
    | .error e => .error e
    | .ok () =>
      if (components path).length = 0 then .error "path must name at least one file" else .ok ()

end Np2ptp
