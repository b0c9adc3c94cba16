import HotPatch.Pattern.Basic
import HotPatch.Text.Hex

/-!
# The text of a pattern

Tokens separated by blanks: two hexadecimal digits for a byte, one or two question marks for
anything. A plus sign may take the place of the first digit and counts as zero.
-/

namespace HotPatch

namespace Text

/-- The characters that separate words: all of the property White_Space. -/
def isBlank (c : Char) : Bool :=
  let n := c.toNat
  (0x9 ≤ n && n ≤ 0xD) || n == 0x20 || n == 0x85 || n == 0xA0 || n == 0x1680 ||
    (0x2000 ≤ n && n ≤ 0x200A) || n == 0x2028 || n == 0x2029 || n == 0x202F || n == 0x205F ||
    n == 0x3000

/-- The maximal runs of characters without a blank, in order. -/
def words : List Char → List (List Char)
  | [] => []
  | c :: rest =>
    if isBlank c then words rest
    else
      match rest, words rest with
      | d :: _, w :: ws => if isBlank d then [c] :: w :: ws else (c :: w) :: ws
      | _, ws => [c] :: ws

end Text

namespace Position

def ofToken? : List Char → Option Position
  | ['?'] => some .wildcard
  | ['?', '?'] => some .wildcard
  | ['+', d] => (Text.hexValue? d).map fun n ↦ .exact (UInt8.ofNat n)
  | [c, d] =>
    match Text.hexValue? c, Text.hexValue? d with
    | some m, some n => some (.exact (UInt8.ofNat (16 * m + n)))
    | _, _ => none
  | _ => none

def token : Position → List Char
  | .exact b => Text.hexByte true b
  | .wildcard => ['?', '?']

end Position

namespace Pattern

/-- Reads tokens, the first of them standing at `place`. -/
def ofTokens (place : Nat) : List (List Char) → Except PatternError (List Position)
  | [] => .ok []
  | t :: rest =>
    match Position.ofToken? t with
    | none => .error (.invalidToken (String.ofList t) place)
    | some p =>
      match ofTokens (place + 1) rest with
      | .ok ps => .ok (p :: ps)
      | .error e => .error e

def parse (text : String) : Except PatternError Pattern :=
  match ofTokens 0 (Text.words text.toList) with
  | .ok ps => ofPositions ps
  | .error e => .error e

def joinTokens : List (List Char) → List Char
  | [] => []
  | [t] => t
  | t :: rest => t ++ ' ' :: joinTokens rest

def print (p : Pattern) : String := String.ofList (joinTokens (p.positions.map Position.token))

end Pattern

end HotPatch
