import HotPatch.Text.Quoted

/-!
# Versions

The known builds of the host program, sets of them, and how the name of the executable tells which
one is running.
-/

namespace HotPatch

/-- Known builds of the host program; `unknown` stands for every other one. -/
inductive Version where
  | unknown
  | retail
  | steam
  | gog
  deriving DecidableEq, Repr, Inhabited

namespace Version

def all : List Version := [.unknown, .retail, .steam, .gog]

def name : Version → String
  | .unknown => "unknown"
  | .retail => "retail"
  | .steam => "steam"
  | .gog => "gog"

/-- The name of the constructor, as it stands in the printed form of a structure. -/
def label : Version → String
  | .unknown => "Unknown"
  | .retail => "Retail"
  | .steam => "Steam"
  | .gog => "Gog"

/-- The bit that stands for the version in a `VersionSet`. -/
def bit : Version → Nat
  | .unknown => 1
  | .retail => 2
  | .steam => 4
  | .gog => 8

/-- Executable names, in small letters, and the build each belongs to. -/
def executables : List (String × Version) :=
  [("game.exe", .retail), ("game_retail.exe", .retail), ("game_steam.exe", .steam),
    ("game_gog.exe", .gog)]

/-- Only ASCII letters are made small before the name is looked up. -/
def ofExecutable (file : String) : Version :=
  let small := String.ofList (file.toList.map Char.toLower)
  ((executables.find? fun e ↦ e.1 == small).map (·.2)).getD .unknown

/-- The last component of a path, unless there is none or it is the parent directory. Empty
components and single dots do not count. -/
def fileName? (path : String) : Option String :=
  let parts := (path.splitOn "/").filter fun p ↦ p ≠ "" ∧ p ≠ "."
  match parts.getLast? with
  | some p => if p = ".." then none else some p
  | none => none

/-- The version that the file at the end of `path` belongs to. -/
def ofPath (path : String) : Version :=
  ((fileName? path).map ofExecutable).getD .unknown

end Version

/-- A set of versions, kept as the sum of their bits. -/
structure VersionSet where
  bits : Nat
  deriving DecidableEq, Repr

namespace VersionSet

def none : VersionSet := ⟨0⟩

def insert (s : VersionSet) (v : Version) : VersionSet := ⟨s.bits ||| v.bit⟩

def ofList (vs : List Version) : VersionSet := vs.foldl insert none

def all : VersionSet := ofList Version.all

def known : VersionSet := ofList [.retail, .steam, .gog]

def contains (s : VersionSet) (v : Version) : Bool := s.bits &&& v.bit != 0

def toList (s : VersionSet) : List Version := Version.all.filter s.contains

def print (s : VersionSet) : String := s!"VersionMask({s.bits})"

end VersionSet

end HotPatch
