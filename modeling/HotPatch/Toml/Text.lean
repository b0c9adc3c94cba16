import HotPatch.Text.Hex

/-!
# The characters of TOML

Which characters may stand in keys, in strings and in comments, and how the others are written.
-/

namespace HotPatch.Toml

def isBare (c : Char) : Bool := c.isAlphanum || c == '_' || c == '-'

def isSpace (c : Char) : Bool := c == ' ' || c == '\t'

def isControl (c : Char) : Bool := (c.toNat < 0x20 && c != '\t') || c.toNat == 0x7F

/-- A character that may stand in a basic string as it is. -/
def isPlain (c : Char) : Bool := !isControl c && c != '"' && c != '\\'

/-- A character that may stand in a literal string. -/
def isLiteral (c : Char) : Bool := !isControl c && c != '\''

/-- The length of the longest run of `q` in a text, `run` of them standing before it. -/
def longestRun (q : Char) (run : Nat) : List Char → Nat
  | [] => run
  | c :: rest => if c = q then longestRun q (run + 1) rest else max run (longestRun q 0 rest)

/-- How a character other than a quote is written in a basic string. -/
def escape (c : Char) : List Char :=
  match c with
  | '\t' => ['\\', 't']
  | '\n' => ['\\', 'n']
  | '\r' => ['\\', 'r']
  | '\\' => ['\\', '\\']
  | _ =>
    if c.toNat = 8 then ['\\', 'b']
    else if c.toNat = 12 then ['\\', 'f']
    else if isControl c then ['\\', 'u', '0', '0'] ++ Text.hexByte true (UInt8.ofNat c.toNat)
    else [c]

end HotPatch.Toml
