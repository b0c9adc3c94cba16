import HotPatch.Toml.Written

/-!
# Putting a document together

A document is a list of statements: headers, which open a table, and assignments in the table opened
last. A table may be opened once, by a header or by dotted keys but not by both, and a key may be
assigned once. Entries keep the order in which their keys came up.
-/

namespace HotPatch.Toml

/-- A key with its parts, which is never empty where it is read. -/
abbrev Path := List String

inductive Statement where
  | header (path : Path)
  /-- Opens one more table of an array. -/
  | element (path : Path)
  | assign (path : Path) (v : Value)

inductive Origin where
  /-- Its own header, or being the document. -/
  | header
  /-- The header of a table inside it. -/
  | inner
  /-- A dotted key. -/
  | dotted
  deriving DecidableEq, Repr

/-- A part of a document that is being put together. -/
inductive Node where
  | closed (v : Value)
  | table (origin : Origin) (entries : List (String × Node))
  /-- The tables of an array, the latest first. -/
  | elements (tables : List (List (String × Node)))

abbrev Entries := List (String × Node)

namespace Entries

/-- Puts `n` under a key: in the place of what stood there, else behind all others. -/
def put (k : String) (n : Node) : Entries → Entries
  | [] => [(k, n)]
  | (k', m) :: rest => if k = k' then (k, n) :: rest else (k', m) :: put k n rest

theorem lookup_put (k k' : String) (n : Node) (es : Entries) :
    lookup k' (put k n es) = if k = k' then some n else lookup k' es := by
  induction es with
  | nil => simp [put, lookup]
  | cons e es ih => grind [put, lookup]

/-- Changes the entries of the table at `path`, going through the latest element of an array. Tables
on the way are made where they are missing; a dotted key does not go through a table that has a
header. -/
def modify (dotted : Bool) (f : Origin → Entries → Option Entries) (origin : Origin)
    (es : Entries) : Path → Option Entries
  | [] => f origin es
  | k :: rest =>
    match lookup k es with
    | none =>
      let made := if dotted then Origin.dotted else Origin.inner
      (modify dotted f made [] rest).map fun c ↦ put k (.table made c) es
    | some (.table o c) =>
      if dotted ∧ o = .header then none
      else (modify dotted f o c rest).map fun c ↦ put k (.table o c) es
    | some (.elements (c :: before)) =>
      (modify dotted f .header c rest).map fun c ↦ put k (.elements (c :: before)) es
    | some (.elements []) | some (.closed _) => none

/-- Assigns `v` to a key. The table that it stands in must have been made by dotted keys if the key
is dotted, and must not if it is not. -/
def assign (path : Path) (v : Value) (es : Entries) : Option Entries :=
  match path.getLast? with
  | none => none
  | some k =>
    let parents := path.dropLast
    modify true (fun o es ↦
      if (o == .dotted) == parents.isEmpty then none
      else
        match lookup k es with
        | none => some (put k (.closed v) es)
        | some _ => none) .header es parents

/-- Opens a table. Only one that the header of an inner table brought about may be there already; it
goes behind all others. -/
def openTable (path : Path) (es : Entries) : Option Entries :=
  match path.getLast? with
  | none => none
  | some k =>
    modify false (fun _ es ↦
      match lookup k es with
      | none => some (put k (.table .header []) es)
      | some (.table .inner c) => some (es.filter (·.1 ≠ k) ++ [(k, .table .header c)])
      | some _ => none) .header es path.dropLast

def openElement (path : Path) (es : Entries) : Option Entries :=
  match path.getLast? with
  | none => none
  | some k =>
    modify false (fun _ es ↦
      match lookup k es with
      | none => some (put k (.elements [[]]) es)
      | some (.elements tables) => some (put k (.elements ([] :: tables)) es)
      | some _ => none) .header es path.dropLast

/-- Carries out statements, `current` being the table opened last. -/
def run (current : Path) (es : Entries) : List Statement → Option Entries
  | [] => some es
  | .header path :: rest =>
    match openTable path es with
    | some es => run path es rest
    | none => none
  | .element path :: rest =>
    match openElement path es with
    | some es => run path es rest
    | none => none
  | .assign path v :: rest =>
    match modify false (fun _ es ↦ assign path v es) .header es current with
    | some es => run current es rest
    | none => none

end Entries

mutual

def Node.toValue : Node → Value
  | .closed v => v
  | .table _ es => .table (Node.toEntries es)
  | .elements tables => .array (Node.toItems tables)

def Node.toEntries : List (String × Node) → List (String × Value)
  | [] => []
  | (k, n) :: rest => (k, n.toValue) :: Node.toEntries rest

def Node.toItems : List (List (String × Node)) → List Value
  | [] => []
  | es :: rest => Node.toItems rest ++ [.table (Node.toEntries es)]

end

/-- The document that statements make, unless they contradict one another or hold what should be a
moment and is not. -/
def Document.ofStatements? (statements : List Statement) : Option Document :=
  match Entries.run [] [] statements with
  | some es => meaningOfEntries? (Node.toEntries es)
  | none => none

/-- The written table that the assignments of an inline table make. -/
def Value.ofAssignments? (assignments : List (Path × Value)) : Option Value :=
  (Entries.run [] [] (assignments.map fun a ↦ .assign a.1 a.2)).map fun es ↦
    .table (Node.toEntries es)

end HotPatch.Toml
