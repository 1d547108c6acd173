import Monody.Text.Quoted

/-!
# Folders

A folder holds files by name and has no folders within it. Reading a file that is not there fails,
and so does writing one into a folder that is not there.

## Main definitions

* `Folder.read`, `Folder.write` — the bytes of a file
-/

namespace Monody

/-- Files by name. -/
structure Folder where
  files : List (List Char × List UInt8)
  deriving DecidableEq, Repr

namespace Folder

/-- There is no such file, or no such folder to write it into. -/
structure Missing where
  path : List Char
  deriving DecidableEq, Repr

/-- The message of a missing file. -/
def Missing.message (m : Missing) : String :=
  "[Errno 2] No such file or directory: " ++ String.ofList (Text.quote m.path)

/-- The bytes of a file. -/
def read (f : Folder) (path : List Char) : Except Missing (List UInt8) :=
  match f.files.lookup path with
  | some bytes => .ok bytes
  | none => .error ⟨path⟩

/-- The folder with a file written in place of any of its name. -/
def write (f : Folder) (path : List Char) (bytes : List UInt8) : Except Missing Folder :=
  if '/' ∈ path then .error ⟨path⟩
  else .ok ⟨(path, bytes) :: f.files.filter fun p => p.1 ≠ path⟩

end Folder

end Monody
