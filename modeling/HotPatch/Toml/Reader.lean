import HotPatch.Toml.Tree

/-!
# Reading TOML

A document is read line by line into statements. Values nest to a limited depth, on which the reader
of values recurses; everything else takes at least one character for each step.
-/

namespace HotPatch.Toml

namespace Read

/-! ## Blanks, comments and ends of lines -/

def skipSpaces (cs : List Char) : List Char := cs.dropWhile isSpace

/-- Takes the end of a line, if the text begins with one. -/
def newline : List Char → Option (List Char)
  | '\n' :: rest => some rest
  | '\r' :: '\n' :: rest => some rest
  | _ => none

/-- Skips a comment, if the text begins with one. -/
def skipComment : List Char → List Char
  | '#' :: rest => rest.dropWhile fun c ↦ !isControl c
  | cs => cs

/-- Takes the rest of a line: blanks, a comment, and the end of the line or of the text. -/
def lineEnd (cs : List Char) : Option (List Char) :=
  match skipComment (skipSpaces cs) with
  | [] => some []
  | cs => newline cs

def skipLines : Nat → List Char → List Char
  | 0, cs => cs
  | fuel + 1, cs =>
    let cs' := skipSpaces cs
    match cs' with
    | '#' :: _ =>
      match newline (skipComment cs') with
      | some rest => skipLines fuel rest
      | none => cs'
    | _ =>
      match newline cs' with
      | some rest => skipLines fuel rest
      | none => cs'

def skipAll (cs : List Char) : List Char := skipLines cs.length cs

/-! ## Strings -/

/-- A character given by `n` hexadecimal digits; it must be one that text can hold. -/
def codePoint (n : Nat) : Reader Char := fun cs ↦
  let ds := cs.take n
  let code := number 16 ds
  if ds.length = n ∧ ds.all (isDigitOf 16) ∧ code.isValidChar then
    some (Char.ofNat code, cs.drop n)
  else none

def escaped : Reader Char
  | 'b' :: rest => some (Char.ofNat 8, rest)
  | 't' :: rest => some ('\t', rest)
  | 'n' :: rest => some ('\n', rest)
  | 'f' :: rest => some (Char.ofNat 12, rest)
  | 'r' :: rest => some ('\r', rest)
  | '"' :: rest => some ('"', rest)
  | '\\' :: rest => some ('\\', rest)
  | 'u' :: rest => codePoint 4 rest
  | 'U' :: rest => codePoint 8 rest
  | _ => none

/-- The rest of a basic string on one line. -/
def basic : Nat → Reader (List Char)
  | 0, _ => none
  | _ + 1, '"' :: rest => some ([], rest)
  | fuel + 1, '\\' :: rest =>
    match escaped rest with
    | some (c, rest) => (basic fuel rest).map fun (s, rest) ↦ (c :: s, rest)
    | none => none
  | fuel + 1, c :: rest =>
    if isPlain c then (basic fuel rest).map fun (s, rest) ↦ (c :: s, rest) else none
  | _ + 1, [] => none

/-- The rest of a literal string on one line. -/
def literal (cs : List Char) : Option (List Char × List Char) :=
  match cs.dropWhile isLiteral with
  | '\'' :: rest => some (cs.takeWhile isLiteral, rest)
  | _ => none

/-- Takes the quotes `q` that end a text over several lines, of which up to two more belong to
it. -/
def closing (q : Char) (cs : List Char) : Option (List Char × List Char) :=
  let n := (cs.takeWhile (· == q)).length
  if n < 3 then none else some (List.replicate (min n 5 - 3) q, cs.drop (min n 5))

/-- Skips blanks and ends of lines, of which the first must end the line of a backslash. -/
def continued (cs : List Char) : Option (List Char) :=
  (newline (skipSpaces cs)).map fun rest ↦ skipBlank rest.length rest
where
  skipBlank : Nat → List Char → List Char
    | 0, cs => cs
    | fuel + 1, cs =>
      match newline (skipSpaces cs) with
      | some rest => skipBlank fuel rest
      | none => skipSpaces cs

/-- The rest of a text over several lines that ends with three quotes `q`. An end of a line counts
as one character, however it is written. -/
def block (q : Char) (escapes : Bool) : Nat → Reader (List Char)
  | 0, _ => none
  | fuel + 1, cs =>
    match closing q cs with
    | some r => some r
    | none =>
      match newline cs with
      | some rest => (block q escapes fuel rest).map fun (s, rest) ↦ ('\n' :: s, rest)
      | none =>
        match cs with
        | [] => none
        | c :: rest =>
          if c = '\\' ∧ escapes then
            match continued rest with
            | some rest => block q escapes fuel rest
            | none =>
              match escaped rest with
              | some (c, rest) => (block q escapes fuel rest).map fun (s, rest) ↦ (c :: s, rest)
              | none => none
          else if isControl c then none
          else (block q escapes fuel rest).map fun (s, rest) ↦ (c :: s, rest)

/-- The rest of a text over several lines, without an end of a line at its front. -/
def lines (q : Char) (escapes : Bool) (cs : List Char) : Option (List Char × List Char) :=
  let cs := (newline cs).getD cs
  block q escapes (cs.length + 1) cs

def line : Reader (List Char)
  | '"' :: rest => basic (rest.length + 1) rest
  | '\'' :: rest => literal rest
  | _ => none

def string : Reader (List Char)
  | '"' :: '"' :: '"' :: rest => lines '"' true rest
  | '\'' :: '\'' :: '\'' :: rest => lines '\'' false rest
  | cs => line cs

/-! ## Keys -/

/-- The depth to which values may nest, and the number of parts that a key may have, are below this
limit. -/
def limit : Nat := 80

def simpleKey (cs : List Char) : Option (String × List Char) :=
  match cs with
  | '"' :: _ | '\'' :: _ => (line cs).map fun (s, rest) ↦ (String.ofList s, rest)
  | _ =>
    let bare := cs.takeWhile isBare
    if bare.isEmpty then none else some (String.ofList bare, cs.drop bare.length)

/-- Parts of a key, with points between and blanks around. -/
def keyParts : Nat → Reader Path
  | 0, _ => none
  | fuel + 1, cs =>
    match simpleKey (skipSpaces cs) with
    | none => none
    | some (k, rest) =>
      match skipSpaces rest with
      | '.' :: rest => (keyParts fuel rest).map fun (ks, rest) ↦ (k :: ks, rest)
      | rest => some ([k], rest)

def key (cs : List Char) : Option (Path × List Char) := keyParts (limit - 1) cs

/-! ## Values -/

/-- The rest of an array, whose items are separated by commas; one may stand at the end. -/
def items (value : Reader Value) : Nat → Reader (List Value)
  | 0, _ => none
  | fuel + 1, cs =>
    match skipAll cs with
    | ']' :: rest => some ([], rest)
    | cs =>
      match value cs with
      | none => none
      | some (v, rest) =>
        match skipAll rest with
        | ',' :: rest => (items value fuel rest).map fun (vs, rest) ↦ (v :: vs, rest)
        | ']' :: rest => some ([v], rest)
        | _ => none

def assignment (value : Reader Value) (cs : List Char) : Option ((Path × Value) × List Char) :=
  match key cs with
  | some (path, '=' :: rest) => (value (skipSpaces rest)).map fun (v, rest) ↦ ((path, v), rest)
  | _ => none

/-- The assignments of an inline table, at least one. -/
def assignments (value : Reader Value) : Nat → Reader (List (Path × Value))
  | 0, _ => none
  | fuel + 1, cs =>
    match assignment value cs with
    | none => none
    | some (a, rest) =>
      match skipSpaces rest with
      | ',' :: rest => (assignments value fuel rest).map fun (as, rest) ↦ (a :: as, rest)
      | '}' :: rest => some ([a], rest)
      | _ => none

def inlineTable (value : Reader Value) (cs : List Char) : Option (Value × List Char) :=
  match skipSpaces cs with
  | '}' :: rest => some (.table [], rest)
  | _ =>
    match assignments value (cs.length + 1) cs with
    | some (as, rest) => (Value.ofAssignments? as).map (·, rest)
    | none => none

/-- A value that is none of arrays and tables. -/
def simpleValue (cs : List Char) : Option (Value × List Char) :=
  match cs with
  | '"' :: _ | '\'' :: _ => (string cs).map fun (s, rest) ↦ (.string (String.ofList s), rest)
  | 't' :: _ => (expect ['t', 'r', 'u', 'e'] cs).map (.boolean true, ·)
  | 'f' :: _ => (expect ['f', 'a', 'l', 's', 'e'] cs).map (.boolean false, ·)
  | _ => scalar cs

/-- A value, in which arrays and tables may nest to the given depth. -/
def value : Nat → Reader Value
  | 0, cs =>
    match cs with
    | '[' :: _ | '{' :: _ => none
    | _ => simpleValue cs
  | depth + 1, cs =>
    match cs with
    | '[' :: rest =>
      (items (value depth) (rest.length + 1) rest).map fun (vs, rest) ↦ (.array vs, rest)
    | '{' :: rest => inlineTable (value depth) rest
    | _ => simpleValue cs

/-! ## Statements -/

def statement (cs : List Char) : Option (Statement × List Char) :=
  match cs with
  | '[' :: '[' :: rest =>
    match key rest with
    | some (path, ']' :: ']' :: rest) => (lineEnd rest).map (.element path, ·)
    | _ => none
  | '[' :: rest =>
    match key rest with
    | some (path, ']' :: rest) => (lineEnd rest).map (.header path, ·)
    | _ => none
  | _ =>
    match assignment (value (limit - 1)) cs with
    | some ((path, v), rest) => (lineEnd rest).map (.assign path v, ·)
    | none => none

def statements : Nat → List Char → Option (List Statement)
  | 0, _ => none
  | fuel + 1, cs =>
    match skipAll cs with
    | [] => some []
    | '#' :: rest => if (skipComment ('#' :: rest)).isEmpty then some [] else none
    | cs =>
      match statement cs with
      | some (s, rest) => (statements fuel rest).map (s :: ·)
      | none => none

end Read

/-- The document that a text holds. A byte order mark at its front does not count. -/
def Document.read? (text : String) : Option Document :=
  let cs := text.toList
  let cs :=
    match cs with
    | c :: rest => if c.toNat = 0xFEFF then rest else cs
    | [] => []
  match Read.statements (cs.length + 1) cs with
  | some statements => Document.ofStatements? statements
  | none => none

end HotPatch.Toml
