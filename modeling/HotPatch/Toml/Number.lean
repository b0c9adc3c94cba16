import HotPatch.Number.Double
import HotPatch.Text.Hex
import HotPatch.Toml.Text
import HotPatch.Toml.Value

/-!
# Reading numbers

Each reader takes its part from the front of a text and answers with what is left.
-/

namespace HotPatch.Toml

abbrev Reader (α : Type) := List Char → Option (α × List Char)

def expect (cs : List Char) : List Char → Option (List Char)
  | rest => if cs.isPrefixOf rest then some (rest.drop cs.length) else none

namespace Read

/-- Takes further digits; an underscore may stand before each. -/
def moreDigits (digit : Char → Bool) : List Char → List Char × List Char
  | '_' :: c :: rest =>
    if digit c then
      let (ds, rest) := moreDigits digit rest
      (c :: ds, rest)
    else ([], '_' :: c :: rest)
  | c :: rest =>
    if digit c then
      let (ds, rest) := moreDigits digit rest
      (c :: ds, rest)
    else ([], c :: rest)
  | [] => ([], [])

def digits (digit : Char → Bool) : Reader (List Char)
  | c :: rest =>
    if digit c then
      let (ds, rest) := moreDigits digit rest
      some (c :: ds, rest)
    else none
  | [] => none

def number (base : Nat) (ds : List Char) : Nat :=
  ds.foldl (fun n d ↦ base * n + (Text.hexValue? d).getD 0) 0

def isDigitOf (base : Nat) (c : Char) : Bool := (Text.hexValue? c).any (· < base)

/-- An integer must fit 64 bits. -/
def integer? (negative : Bool) (n : Nat) : Option Value :=
  let i : Int := if negative then -n else n
  if -0x8000000000000000 ≤ i ∧ i < 0x8000000000000000 then some (.integer i) else none

/-- A whole number without a sign, in the given base. -/
def whole (base : Nat) : Reader Value := fun cs ↦
  match digits (isDigitOf base) cs with
  | some (ds, rest) => (integer? false (number base ds)).map (·, rest)
  | none => none

/-- The digits before a point: a zero alone, or digits that do not begin with one. -/
def leading : Reader (List Char)
  | '0' :: rest => some (['0'], rest)
  | cs => digits Char.isDigit cs

def fraction : Reader (List Char)
  | '.' :: rest => digits Char.isDigit rest
  | rest => some ([], rest)

/-- An exponent, if there is a mark for one. -/
def exponent : Reader Int
  | c :: rest =>
    if c == 'e' || c == 'E' then
      let (negative, rest) :=
        match rest with
        | '-' :: rest => (true, rest)
        | '+' :: rest => (false, rest)
        | rest => (false, rest)
      (digits Char.isDigit rest).map fun (ds, rest) ↦
        (if negative then -(number 10 ds : Int) else number 10 ds, rest)
    else some (0, c :: rest)
  | [] => some (0, [])

/-- A number whose sign was taken. Too large a float is refused unless it is negative. -/
def decimal (negative : Bool) : Reader Value := fun cs ↦
  match leading cs with
  | none => none
  | some (whole, rest) =>
    match rest with
    | [] => (integer? negative (number 10 whole)).map (·, rest)
    | c :: _ =>
      if c == '.' || c == 'e' || c == 'E' then
        match fraction rest with
        | none => none
        | some (part, rest) =>
          match exponent rest with
          | none => none
          | some (e, rest) =>
            let x := Double.ofDecimal negative (number 10 (whole ++ part)) (e - part.length)
            if x.isInfinite && !negative then none else some (.float x, rest)
      else (integer? negative (number 10 whole)).map (·, rest)

/-- A float that is written as a word, its sign taken. -/
def word (negative : Bool) (cs : List Char) : Option (Value × List Char) :=
  match expect ['i', 'n', 'f'] cs with
  | some rest =>
    some (.float (.ofMagnitude negative BinaryFormat.double.infinity), rest)
  | none =>
    match expect ['n', 'a', 'n'] cs with
    | some rest => some (.float (.ofMagnitude negative BinaryFormat.double.quiet), rest)
    | none => none

def signed (negative : Bool) (cs : List Char) : Option (Value × List Char) :=
  match word negative cs with
  | some r => some r
  | none => decimal negative cs

def numeral : Reader Value
  | '+' :: rest => signed false rest
  | '-' :: rest => signed true rest
  | '0' :: 'x' :: rest => whole 16 rest
  | '0' :: 'o' :: rest => whole 8 rest
  | '0' :: 'b' :: rest => whole 2 rest
  | rest => signed false rest

end Read

end HotPatch.Toml
