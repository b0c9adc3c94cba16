/-!
# Files

A directory of files, which may not be there yet, and where paths lead that start from it.
-/

namespace HotPatch

structure Directory where
  files : Option (List (String × List UInt8))

inductive Place where
  | directory
  /-- To a file of the directory that the path starts from, which may not be there yet. -/
  | file (name : String)
  | nowhere
  /-- The path cannot be followed: it goes through a file, or it is not well formed. -/
  | blocked
  deriving DecidableEq, Repr

namespace Place

def nameLimit : Nat := 255

def pathLimit : Nat := 4095

/-- Whether the part of a path leads to the directory that it starts from. -/
def stays (part : String) : Bool := part = "" || part = "."

/-- Where the parts of a path lead from a directory of which nothing is known. -/
def outside (parts : List String) : Place :=
  if parts.all fun part ↦ stays part || part = ".." then .directory else .nowhere

/-- Where the parts of a path lead from a directory with the given files. A part that is followed by
others, be they empty, has to be a directory. -/
def inside (files : List String) : List String → Place
  | [] => .directory
  | part :: rest =>
    if stays part then inside files rest
    else if part = ".." then outside rest
    else if nameLimit < part.utf8ByteSize then .blocked
    else if rest.isEmpty then .file part
    else if files.contains part then .blocked
    else .nowhere

/-- Where a path leads from a directory with the given files, if it exists. A path that begins with
a slash does not depend on it. -/
def ofPath (files : Option (List String)) (path : String) : Place :=
  let parts := path.splitOn "/"
  if path.contains (Char.ofNat 0) || pathLimit < path.utf8ByteSize then .blocked
  else if path.startsWith "/" then outside parts
  else
    match files with
    | none => .nowhere
    | some files => inside files parts

end Place

namespace Directory

def missing : Directory := ⟨none⟩

def create (d : Directory) : Directory := ⟨some (d.files.getD [])⟩

/-- Where a path leads that starts from the directory. -/
def place (d : Directory) (path : String) : Place :=
  .ofPath (d.files.map fun files ↦ files.map (·.1)) path

def write (d : Directory) (path : String) (bytes : List UInt8) : Option Directory :=
  match d.place path, d.files with
  | .file name, some files => some ⟨some ((name, bytes) :: files.filter fun f ↦ f.1 ≠ name)⟩
  | _, _ => none

inductive Content where
  | missing
  /-- Not a file, or not text. -/
  | unreadable
  | text (s : String)
  deriving DecidableEq, Repr

def read (d : Directory) (path : String) : Content :=
  match d.place path with
  | .directory | .blocked => .unreadable
  | .nowhere => .missing
  | .file name =>
    match (d.files.getD []).find? fun f ↦ f.1 = name with
    | none => .missing
    | some (_, bytes) =>
      match String.fromUTF8? (ByteArray.mk bytes.toArray) with
      | some s => .text s
      | none => .unreadable

end Directory

end HotPatch
