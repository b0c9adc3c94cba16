/-!
# Byte patterns

A pattern is a non-empty list of positions, each a byte or anything. It is searched for by trying
every offset in turn.
-/

namespace HotPatch

inductive Position where
  | exact (b : UInt8)
  | wildcard
  deriving DecidableEq, Repr

namespace Position

def admits : Position → UInt8 → Bool
  | .exact b, c => b == c
  | .wildcard, _ => true

/-- The byte that a position stands for, zero for a wildcard. -/
def value : Position → UInt8
  | .exact b => b
  | .wildcard => 0

def isExact : Position → Bool
  | .exact _ => true
  | .wildcard => false

end Position

inductive PatternError where
  | empty
  /-- The token at the given place is neither a byte nor a wildcard. -/
  | invalidToken (token : String) (place : Nat)
  deriving DecidableEq, Repr

namespace PatternError

def message : PatternError → String
  | .empty => "pattern is empty"
  | .invalidToken token place => "invalid pattern token `" ++ token ++ s!"` at position {place}"

end PatternError

structure Pattern where
  positions : List Position
  nonempty : positions ≠ []
  deriving DecidableEq, Repr

namespace Pattern

def ofPositions : List Position → Except PatternError Pattern
  | [] => .error .empty
  | p :: rest => .ok ⟨p :: rest, by simp⟩

def ofBytes (bytes : List UInt8) : Except PatternError Pattern :=
  ofPositions (bytes.map .exact)

def length (p : Pattern) : Nat := p.positions.length

/-- Whether each position has a byte that suits it. -/
def startsWith : List Position → List UInt8 → Bool
  | [], _ => true
  | _ :: _, [] => false
  | p :: ps, b :: bs => p.admits b && startsWith ps bs

def fits (p : Pattern) (bytes : List UInt8) : Bool := startsWith p.positions bytes

def findFrom (p : Pattern) (offset : Nat) : List UInt8 → Option Nat
  | [] => none
  | b :: rest => if p.fits (b :: rest) then some offset else p.findFrom (offset + 1) rest

def find (p : Pattern) (bytes : List UInt8) : Option Nat := p.findFrom 0 bytes

end Pattern

end HotPatch
