import HotPatch.Memory.Basic
import HotPatch.Pattern.Basic
import HotPatch.Version

/-!
# Targets

How to find one place in the host: a table of addresses by version, else a pattern with adjustments,
and the bytes that must stand there.
-/

namespace HotPatch

structure Target where
  name : String
  addresses : List (Version × Address)
  pattern : Option Pattern
  /-- Added to where the pattern leads. -/
  offset : Int
  /-- The place of a displacement inside the match, and the length of the instruction holding it. -/
  relative : Option (Nat × Nat)
  /-- The offsets in the image between which the pattern is searched for. -/
  window : Option (Nat × Nat)
  expected : Option (List UInt8)
  deriving DecidableEq, Repr

namespace Target

def named (name : String) : Target := ⟨name, [], none, 0, none, none, none⟩

/-- Adds a fixed address; an earlier one for the same version goes. -/
def putAddress (t : Target) (v : Version) (a : Address) : Target :=
  { t with addresses := (t.addresses.filter fun e ↦ e.1 ≠ v) ++ [(v, a)] }

/-- One thing that is told about a target. What is told later counts; addresses are told for one
version each. -/
inductive Detail where
  | address (v : Version) (a : Address)
  | pattern (p : Pattern)
  | offset (i : Int)
  | relative (place length : Nat)
  | window (start stop : Nat)
  | expected (bytes : List UInt8)

def tell (t : Target) : Detail → Target
  | .address v a => t.putAddress v a
  | .pattern p => { t with pattern := some p }
  | .offset i => { t with offset := i }
  | .relative place length => { t with relative := some (place, length) }
  | .window start stop => { t with window := some (start, stop) }
  | .expected bytes => { t with expected := some bytes }

def described (name : String) (ds : List Detail) : Target := ds.foldl tell (named name)

def address? (t : Target) (v : Version) : Option Address :=
  (t.addresses.find? fun e ↦ e.1 == v).map (·.2)

/-- Whether there is any way to find the target. -/
def hasStrategy (t : Target) : Bool := !t.addresses.isEmpty || t.pattern.isSome

end Target

end HotPatch
