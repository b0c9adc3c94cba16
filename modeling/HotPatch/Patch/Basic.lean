import HotPatch.Patch.Program

/-!
# Patches

A patch is disabled, enabled, or stranded: disabled with changes that could not be undone.
-/

namespace HotPatch

/-- What a patch says about itself. -/
structure Metadata where
  /-- The key of the patch, under which its state is saved. -/
  name : String
  displayName : String
  description : String
  category : String
  experimental : Bool
  /-- The versions on which the patch may be installed. -/
  versions : VersionSet
  technicalDetails : String
  deriving DecidableEq, Repr

namespace Metadata

def named (name : String) : Metadata := ⟨name, name, "", "General", false, .all, ""⟩

def print (m : Metadata) : String :=
  Text.record "PatchMetadata" [("name", Text.quoted m.name),
    ("display_name", Text.quoted m.displayName), ("description", Text.quoted m.description),
    ("category", Text.quoted m.category), ("experimental", toString m.experimental),
    ("versions", m.versions.print), ("technical_details", Text.quoted m.technicalDetails)]

end Metadata

/-- What makes up a patch. The programs are given for each call, counted from zero. -/
structure Body where
  settings : List Setting
  install : Nat → Program
  /-- Retries what could not be done when the patch was installed. -/
  update : Nat → Program
  /-- Reported when everything is undone. -/
  farewell : Option Event
  /-- Whether the body breaks off then. -/
  farewellAborts : Bool
  /-- Whether the patch wants a panel of its own. -/
  customUi : Bool

structure Patch where
  metadata : Metadata
  body : Body
  installs : Nat
  updates : Nat
  enabled : Bool
  lastError : Option String
  settings : List Setting
  changes : List Change
  /-- Whether the patch was ever switched on or off by request. -/
  touched : Bool

namespace Patch

def ofBody (metadata : Metadata) (body : Body) : Patch :=
  ⟨metadata, body, 0, 0, false, none, body.settings, [], false⟩

def name (p : Patch) : String := p.metadata.name

/-- Whether a failure left changes that could not be undone. -/
def isStranded (p : Patch) : Bool := !p.enabled && !p.changes.isEmpty

def setting (p : Patch) (name : String) : Option Setting.Value :=
  (Setting.named? p.settings name).map (·.value)

def touch (p : Patch) : Patch := { p with touched := true }

def print (p : Patch) : String :=
  Text.record "Patch" [("name", Text.quoted p.name), ("enabled", toString p.enabled),
    ("last_error", Text.quotedOption p.lastError), ("applied", toString p.changes.length)]

end Patch

end HotPatch
