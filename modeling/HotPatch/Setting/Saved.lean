import HotPatch.Setting.Basic
import HotPatch.Toml.Value

/-!
# Saved settings

How the value of a setting stands in a document. A choice is saved by the name of its option, so
that it survives a change of their order.
-/

namespace HotPatch.Setting

def toToml (s : Setting) : Toml.Value :=
  match s.value, s.kind with
  | .choice i, .choice options =>
    match options[i]? with
    | some option => .string option
    | none => .integer (Value.signed64 i)
  | .choice i, _ => .integer (Value.signed64 i)
  | .bool b, _ => .boolean b
  | .int i, _ => .integer i
  | .float x, _ => .float x

/-- Whether two texts differ at most in the case of ASCII letters. -/
def sameLetters (s t : String) : Bool :=
  s.toList.map Char.toLower == t.toList.map Char.toLower

/-- The value that a saved one stands for; nothing if it is of another type. An option may be given
by its name in any case of letters, or by its position. -/
def Kind.ofToml? : Kind → Toml.Value → Option Value
  | .bool, .boolean b => some (.bool b)
  | .int .., .integer i => some (.int i)
  | .float .., .float x => some (.float x)
  | .float .., .integer i => some (.float (.ofInt i))
  | .choice options, .string s => (options.findIdx? fun o ↦ sameLetters o s).map .choice
  | .choice _, .integer i => if 0 ≤ i then some (.choice i.toNat) else none
  | _, _ => none

end HotPatch.Setting
