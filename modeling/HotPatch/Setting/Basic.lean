import HotPatch.Setting.Binding
import HotPatch.UndoRecord

/-!
# Settings

A typed value within bounds, and the write that keeps memory in step with it while its patch is
enabled.
-/

namespace HotPatch

inductive SettingError where
  | unknownPatch (name : String)
  | unknownSetting (name : String)
  /-- The value is of another type than the setting, which wants `expected`. -/
  | typeMismatch (name expected : String)
  | write (name : String) (source : MemoryError)
  deriving DecidableEq, Repr

namespace SettingError

def message : SettingError → String
  | .unknownPatch name => "unknown patch `" ++ name ++ "`"
  | .unknownSetting name => "unknown setting `" ++ name ++ "`"
  | .typeMismatch name expected => "setting `" ++ name ++ "` expects " ++ expected
  | .write name source => "failed to write setting `" ++ name ++ "`: " ++ source.message

end SettingError

structure Setting where
  name : String
  description : String
  kind : Setting.Kind
  default : Setting.Value
  value : Setting.Value
  binding : Option Setting.Binding
  live : Option UndoRecord
  pending : Bool
  deriving DecidableEq, Repr

namespace Setting

/-- A setting at its default, which is brought within bounds. -/
def ofKind (name : String) (kind : Kind) (default : Value) : Setting :=
  let default := (kind.clamp? default).getD default
  ⟨name, "", kind, default, default, none, none, false⟩

def bool (name : String) (default : Bool) : Setting := ofKind name .bool (.bool default)

/-- Bounds in the wrong order are swapped. -/
def int (name : String) (default a b : Int) : Setting :=
  ofKind name (.int (min a b) (max a b)) (.int default)

def float (name : String) (default a b : Double) : Setting :=
  let inOrder := a.less b || a.same b
  ofKind name (if inOrder then .float a b else .float b a) (.float default)

def choice (name : String) (default : Nat) (options : List String) : Setting :=
  ofKind name (.choice options) (.choice default)

def describe (s : Setting) (description : String) : Setting := { s with description }

def bind (s : Setting) (b : Binding) : Setting := { s with binding := some b }

/-- Whether the value differs from the default. What is no number always does. -/
def isModified (s : Setting) : Bool := !s.value.same s.default

/-- Stores a value brought within bounds, without touching memory. -/
def assign (s : Setting) (v : Value) : Except SettingError Setting :=
  match s.kind.clamp? v with
  | some v => .ok { s with value := v }
  | none => .error (.typeMismatch s.name s.kind.typeName)

/-- Brings the write at `a` up to date. A write that is elsewhere is undone first, and is forgotten
once it is undone. -/
def writeAt (s : Setting) (a : Address) (bytes : List UInt8) (h : Host) :
    Except MemoryError Unit × Setting × Host :=
  match s.live with
  | none =>
    match UndoRecord.make a bytes h with
    | (.ok r, h) => (.ok (), { s with live := some r }, h)
    | (.error e, h) => (.error e, s, h)
  | some old =>
    if old.address = a then
      match old.retarget bytes h with
      | (.ok r, h) => (.ok (), { s with live := some r }, h)
      | (.error e, h) => (.error e, s, h)
    else
      match old.restore h with
      | (.error e, h) => (.error e, s, h)
      | (.ok (), h) =>
        match UndoRecord.make a bytes h with
        | (.ok r, h) => (.ok (), { s with live := some r }, h)
        | (.error e, h) => (.error e, { s with live := none }, h)

/-- Writes the value to where it is bound. The answer is whether it is in memory, or need not be; a
setting without an address waits for one. -/
def writeLive (s : Setting) (site : Site) : Except SettingError Bool × Setting × Site :=
  match s.binding with
  | none => (.ok true, s, site)
  | some b =>
    match b.locate site with
    | (none, site) =>
      let site :=
        if s.pending then site
        else site.note .warn ("Setting " ++ s.name ++ " has no address yet, deferring")
      (.ok false, { s with pending := true }, site)
    | (some a, site) =>
      match s.writeAt a (b.width.encode s.value) site.host with
      | (.error e, s, h) => (.error (.write s.name e), s, { site with host := h })
      | (.ok (), s, h) =>
        let h := h.note .debug
          ("Wrote setting " ++ s.name ++ " = " ++ s.value.print ++ " at " ++ Text.address a)
        (.ok true, { s with pending := false }, { site with host := h })

/-- Undoes the write that is in memory. A write that waits is given up. -/
def restoreLive (s : Setting) (h : Host) : Except SettingError Unit × Setting × Host :=
  match s.live with
  | none => (.ok (), { s with pending := false }, h)
  | some r =>
    match r.restore h with
    | (.ok (), h) => (.ok (), { s with pending := false, live := none }, h)
    | (.error e, h) => (.error (.write s.name e), { s with pending := false }, h)

end Setting

end HotPatch
