import HotPatch.Toml.Number

/-!
# Dates and times

A moment is read into its one written form: two digits for each part, `T` between a date and a time,
and no zeros at the end of a fraction.
-/

namespace HotPatch.Toml

namespace Read

def fixed (n : Nat) : Reader Nat := fun cs ↦
  let ds := cs.take n
  if ds.length = n ∧ ds.all Char.isDigit then some (number 10 ds, cs.drop n) else none

/-- Takes a mark, then exactly two digits whose number lies between two bounds. -/
def part (mark : Char) (low high : Nat) : Reader Nat
  | c :: rest =>
    if c = mark then
      match fixed 2 rest with
      | some (n, rest) => if low ≤ n ∧ n ≤ high then some (n, rest) else none
      | none => none
    else none
  | [] => none

def isLeap (year : Nat) : Bool := year % 4 == 0 && (year % 100 != 0 || year % 400 == 0)

def daysIn (year month : Nat) : Nat :=
  if month = 2 then (if isLeap year then 29 else 28)
  else if month = 4 ∨ month = 6 ∨ month = 9 ∨ month = 11 then 30
  else 31

def padded (n : Nat) (i : Nat) : List Char :=
  let ds := Nat.toDigits 10 i
  List.replicate (n - ds.length) '0' ++ ds

def date : Reader (List Char) := fun cs ↦
  match fixed 4 cs with
  | none => none
  | some (year, rest) =>
    match part '-' 1 12 rest with
    | none => none
    | some (month, rest) =>
      match part '-' 1 (daysIn year month) rest with
      | none => none
      | some (day, rest) =>
        some (padded 4 year ++ '-' :: padded 2 month ++ '-' :: padded 2 day, rest)

/-- A fraction of a second, of which nine digits count; zeros at its end are not kept. -/
def second : Reader (List Char)
  | '.' :: rest =>
    let ds := rest.takeWhile Char.isDigit
    if ds.isEmpty then none
    else
      let kept := ((ds.take 9).reverse.dropWhile (· == '0')).reverse
      some (if kept.isEmpty then [] else '.' :: kept, rest.drop ds.length)
  | rest => some ([], rest)

def time : Reader (List Char) := fun cs ↦
  match fixed 2 cs with
  | none => none
  | some (hour, rest) =>
    if 23 < hour then none
    else
      match part ':' 0 59 rest with
      | none => none
      | some (minute, rest) =>
        match part ':' 0 60 rest with
        | none => none
        | some (sec, rest) =>
          (second rest).map fun (part, rest) ↦
            (padded 2 hour ++ ':' :: padded 2 minute ++ ':' :: padded 2 sec ++ part, rest)

/-- The distance to universal time, if one is given, as its text. No distance counts as positive. -/
def zone : Reader (List Char)
  | 'Z' :: rest | 'z' :: rest => some (['Z'], rest)
  | c :: rest =>
    if c == '+' || c == '-' then
      match fixed 2 rest with
      | none => none
      | some (hour, rest) =>
        if 23 < hour then none
        else
          (part ':' 0 59 rest).map fun (minute, rest) ↦
            let sign := if hour = 0 ∧ minute = 0 then '+' else c
            (sign :: padded 2 hour ++ ':' :: padded 2 minute, rest)
    else some ([], c :: rest)
  | [] => some ([], [])

/-- The time of a day, with the distance to universal time, as the text of a moment. -/
def timeOn (day : List Char) : Reader (List Char) := fun cs ↦
  match time cs with
  | none => none
  | some (clock, rest) =>
    (zone rest).map fun (offset, rest) ↦ (day ++ 'T' :: clock ++ offset, rest)

def isJoint (c : Char) : Bool := c == 'T' || c == 't' || c == ' '

def timeAhead : List Char → Bool
  | a :: b :: ':' :: _ => a.isDigit && b.isDigit
  | _ => false

def dateAhead : List Char → Bool
  | a :: b :: c :: d :: '-' :: _ => a.isDigit && b.isDigit && c.isDigit && d.isDigit
  | _ => false

/-- A date, with a time if one follows it. -/
def dateTime : Reader (List Char) := fun cs ↦
  match date cs with
  | none => none
  | some (day, rest) =>
    match rest with
    | c :: after =>
      if isJoint c && timeAhead after then timeOn day after else some (day, rest)
    | [] => some (day, [])

def moment : Reader (List Char) := fun cs ↦
  if dateAhead cs then dateTime cs else if timeAhead cs then time cs else none

def momentOnly? (cs : List Char) : Option (List Char) :=
  match moment cs with
  | some (text, []) => some text
  | _ => none

def scalar : Reader Value := fun cs ↦
  if dateAhead cs || timeAhead cs then
    (moment cs).map fun (text, rest) ↦ (.moment (String.ofList text), rest)
  else numeral cs

end Read

end HotPatch.Toml
