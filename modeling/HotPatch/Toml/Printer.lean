import HotPatch.Number.Decimal
import HotPatch.Toml.Text
import HotPatch.Toml.Value

/-!
# Writing TOML

Each string is written in the simplest form that can hold it. A document is written table by table,
with blank lines between.
-/

namespace HotPatch.Toml

/-- The body of a basic string on one line. -/
def escapeLine (cs : List Char) : List Char :=
  cs.flatMap fun c ↦ if c = '"' then ['\\', '"'] else escape c

/-- The body of a basic string over several lines, `run` quotes standing before it: every third
quote of a run gets a backslash. -/
def escapeLines (run : Nat) : List Char → List Char
  | [] => []
  | c :: rest =>
    if c = '"' then
      if run = 2 then '\\' :: '"' :: escapeLines 0 rest else '"' :: escapeLines (run + 1) rest
    else if c = '\n' then '\n' :: escapeLines 0 rest
    else escape c ++ escapeLines 0 rest

/-- A key stands bare where it can. Single quotes are used where they save escapes other than that
of a tab, and double quotes else. -/
def printKey (key : String) : String :=
  let cs := key.toList
  if !cs.isEmpty && cs.all isBare then key
  else if !cs.all isPlain && cs.all isLiteral then "'" ++ key ++ "'"
  else "\"" ++ String.ofList (escapeLine cs) ++ "\""

/-- A text between delimiters, which a newline follows if the text has one. -/
def delimited (delimiter : String) (cs body : List Char) : String :=
  delimiter ++ (if cs.contains '\n' then "\n" else "") ++ String.ofList body ++ delimiter

/-- The string in the first form that can hold it. -/
def printString (s : String) : String :=
  let cs := s.toList
  let lines := cs.contains '\n'
  let clean := cs.all fun c ↦ !isControl c || c == '\n'
  let backslash := cs.contains '\\'
  if clean && !backslash && !lines && !cs.contains '"' then
    "\"" ++ String.ofList (escapeLine cs) ++ "\""
  else if clean && !lines && !cs.contains '\'' then "'" ++ s ++ "'"
  else if clean && !backslash && longestRun '"' 0 cs ≤ 2 then
    delimited "\"\"\"" cs (escapeLines 0 cs)
  else if clean && longestRun '\'' 0 cs ≤ 2 then delimited "'''" cs cs
  else if lines then delimited "\"\"\"" cs (escapeLines 0 cs)
  else "\"" ++ String.ofList (escapeLine cs) ++ "\""

namespace Value

mutual

/-- A value on one line, as far as its strings allow. -/
def print : Value → String
  | .string s => printString s
  | .integer i => toString i
  | .float x => x.text Double.inDocument
  | .boolean b => toString b
  | .moment text => text
  | .array items => "[" ++ ", ".intercalate (printItems items) ++ "]"
  | .table [] => "\x7b\x7d"
  | .table (e :: es) => "\x7b " ++ ", ".intercalate (printEntries (e :: es)) ++ " \x7d"

def printItems : List Value → List String
  | [] => []
  | v :: rest => v.print :: printItems rest

def printEntries : List (String × Value) → List String
  | [] => []
  | (k, v) :: rest => (printKey k ++ " = " ++ v.print) :: printEntries rest

end

end Value

/-! ## Documents -/

def Value.isTable : Value → Bool
  | .table _ => true
  | _ => false

/-- The entries that stand on lines of their own. -/
def plainEntries (entries : List (String × Value)) : List (String × Value) :=
  entries.filter fun e ↦ !e.2.isTable

def printLines (entries : List (String × Value)) : String :=
  String.join ((Value.printEntries entries).map (· ++ "\n"))

/-- The header of a table and its lines. A table that holds nothing but tables has neither. -/
def printTable (path : List String) (entries : List (String × Value)) : List String :=
  let plain := plainEntries entries
  if plain.isEmpty && !entries.isEmpty then []
  else ["[" ++ ".".intercalate (path.map printKey) ++ "]\n" ++ printLines plain]

mutual

def Value.printTables (path : List String) : Value → List String
  | .table entries => printTable path entries ++ printInner path entries
  | _ => []

def printInner (path : List String) : List (String × Value) → List String
  | [] => []
  | (k, v) :: rest => v.printTables (path ++ [k]) ++ printInner path rest

end

/-- The text of a document: the entries outside all tables, then the tables. -/
def Document.print (d : Document) : String :=
  let plain := plainEntries d
  "\n".intercalate ((if plain.isEmpty then [] else [printLines plain]) ++ printInner [] d)

end HotPatch.Toml
