import HotPatch.Resolver
import HotPatch.Setting.Value

/-!
# Bindings

Where in memory the value of a setting is kept, and how it is laid out there.
-/

namespace HotPatch.Setting

inductive Place where
  | fixed (a : Address)
  /-- The resolver finds it. -/
  | target (t : Target)
  /-- The host knows it, once the object is there. -/
  | deferred (cell : Nat)
  deriving DecidableEq, Repr

namespace Place

def print : Place → String
  | .fixed a => "Address(" ++ Text.address a ++ ")"
  | .target t => "Target(" ++ t.name ++ ")"
  | .deferred _ => "Deferred"

end Place

structure Binding where
  place : Place
  width : Width
  deriving DecidableEq, Repr

namespace Binding

/-- The address as of now, if there is one. -/
def locate (b : Binding) (s : Site) : Option Address × Site :=
  match b.place with
  | .fixed a => (some a, s)
  | .deferred cell => (s.host.deferred cell, s)
  | .target t =>
    match s.resolve t with
    | (.ok found, s) => (some found.address, s)
    | (.error e, s) =>
      (none, s.note .debug ("Setting target " ++ t.name ++ " unavailable: " ++ e.message))

end Binding

end HotPatch.Setting
