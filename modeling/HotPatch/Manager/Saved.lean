import HotPatch.Manager.Basic
import HotPatch.Setting.Saved
import HotPatch.Toml.Printer
import HotPatch.Toml.Reader

/-!
# Saved state

Which patches are enabled and which settings differ from their defaults, as a document with one
section for each patch. What a document says of patches or settings that are not there, or with
values that do not fit, is passed over.
-/

namespace HotPatch

structure Section where
  enabled : Option Bool
  settings : List (String × Toml.Value)

namespace Section

def readEnabled : Option Toml.Value → Option (Option Bool)
  | none => some none
  | some (.boolean b) => some (some b)
  | some _ => none

/-- The second field of a section. A moment counts as its text. -/
def readSettings : Option Toml.Value → Option (List (String × Toml.Value))
  | none => some []
  | some (.table entries) => Toml.entriesWithoutMoments? entries
  | some _ => none

/-- A section is a table, or a list of its fields in order. Fields may be missing, and a table may
hold other keys. -/
def ofToml? : Toml.Value → Option Section
  | .table entries =>
    match readEnabled (Toml.lookup "Enabled" entries),
      readSettings (Toml.lookup "Settings" entries) with
    | some enabled, some settings => some ⟨enabled, settings⟩
    | _, _ => none
  | .array items =>
    if 2 < items.length then none
    else
      match readEnabled items[0]?, readSettings items[1]? with
      | some enabled, some settings => some ⟨enabled, settings⟩
      | _, _ => none
  | _ => none

def toToml (s : Section) : Toml.Value :=
  .table ((match s.enabled with
    | some b => [("Enabled", .boolean b)]
    | none => []) ++ (if s.settings.isEmpty then [] else [("Settings", .table s.settings)]))

end Section

namespace Patch

/-- The settings that differ from their defaults, by name. A later one of the same name wins. -/
def savedSettings (p : Patch) : List (String × Toml.Value) :=
  (p.settings.filter Setting.isModified).foldl (fun es s ↦ Toml.insert s.name s.toToml es) []

/-- What is saved of a patch: nothing, if nobody switched it and all settings are at their
defaults. -/
def saved? (p : Patch) : Option Section :=
  if !p.touched && p.savedSettings.isEmpty then none else some ⟨some p.enabled, p.savedSettings⟩

def restoreSettings (p : Patch) : List (String × Toml.Value) → Site → Patch × Site
  | [], s => (p, s)
  | (key, v) :: rest, s =>
    match Setting.named? p.settings key with
    | none =>
      p.restoreSettings rest (s.note .warn ("Ignoring unknown setting " ++ p.name ++ "." ++ key))
    | some x =>
      match x.kind.ofToml? v with
      | none =>
        p.restoreSettings rest (s.note .warn
          ("Ignoring " ++ p.name ++ "." ++ key ++ ": unexpected value " ++ v.print))
      | some v =>
        match p.setSetting key v s with
        | (.ok _, p, s) => p.restoreSettings rest s
        | (.error e, p, s) =>
          p.restoreSettings rest (s.note .warn
            ("Failed to restore " ++ p.name ++ "." ++ key ++ ": " ++ e.message))

/-- Brings a patch to its saved state, the settings first, so that it is installed with them. -/
def restore (p : Patch) (saved : Section) (s : Site) : Patch × Site :=
  match p.restoreSettings saved.settings s with
  | (p, s) =>
    match saved.enabled with
    | none => (p, s)
    | some true =>
      match p.touch.install s with
      | (_, p, s) => (p, s)
    | some false =>
      match p.touch.uninstall s with
      | (_, p, s) => (p, s)

end Patch

namespace Manager

def document (m : Manager) : Toml.Document :=
  m.patches.foldl (fun d p ↦
    match p.saved? with
    | some saved => Toml.insert p.name saved.toToml d
    | none => d) []

def save (m : Manager) : String := m.document.print

/-- Brings a patch to the state that a section of its name holds. The answer is whether there was
one to bring. -/
def restoreSection (m : Manager) (name : String) (v : Toml.Value) (h : Host) :
    Bool × Manager × Host :=
  match Section.ofToml? v with
  | none => (false, m, h.note .warn ("Ignoring malformed section [" ++ name ++ "]"))
  | some saved =>
    match m.act name (fun p s ↦ ((), p.restore saved s)) h with
    | (some (), m, h) => (true, m, h)
    | (none, m, h) => (false, m, h.note .warn ("Ignoring state for unknown patch " ++ name))

/-- Restores sections in order. The answer is the number of patches restored. -/
def restoreSections (m : Manager) : Toml.Document → Host → Nat × Manager × Host
  | [], h => (0, m, h)
  | (name, v) :: rest, h =>
    match m.restoreSection name v h with
    | (restored, m, h) =>
      match m.restoreSections rest h with
      | (count, m, h) => ((if restored then count + 1 else count), m, h)

def restore (m : Manager) (document : Toml.Document) (h : Host) : Nat × Manager × Host :=
  match m.restoreSections document h with
  | (count, m, h) => (count, m, h.note .info s!"Restored state of {count} patch(es)")

/-- Restores the state that a text holds. A text that cannot be read changes nothing. -/
def load (m : Manager) (text : String) (h : Host) : Option Nat × Manager × Host :=
  match Toml.Document.read? text with
  | none => (none, m, h)
  | some document =>
    match m.restore document h with
    | (count, m, h) => (some count, m, h)

end Manager

end HotPatch
