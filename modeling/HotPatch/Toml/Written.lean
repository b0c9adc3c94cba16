import HotPatch.Toml.Moment

/-!
# Written values

A written value has its tables in the order of the text. A table that begins with the reserved key
stands for the moment in the string under it, whatever else the table holds; of any other the
entries are put in the order of their keys.
-/

namespace HotPatch.Toml

/-- The first key of a table that stands for a moment. -/
def reservedKey : String := "$__toml_private_datetime"

/-- What stands under the reserved key of a table that begins with it. -/
def reserved? : List (String × Value) → Option Value
  | (k, v) :: _ => if k = reservedKey then some v else none
  | [] => none

def Value.momentIn? : Value → Option Value
  | .string s => (Read.momentOnly? s.toList).map fun text ↦ .moment (String.ofList text)
  | _ => none

mutual

def Value.meaning? : Value → Option Value
  | .array items => (meaningOfItems? items).map .array
  | .table entries =>
    match reserved? entries with
    | some v => v.momentIn?
    | none => (meaningOfEntries? entries).map .table
  | v => some v

def meaningOfItems? : List Value → Option (List Value)
  | [] => some []
  | v :: rest =>
    match v.meaning?, meaningOfItems? rest with
    | some v, some vs => some (v :: vs)
    | _, _ => none

def meaningOfEntries? : List (String × Value) → Option (List (String × Value))
  | [] => some []
  | (k, v) :: rest =>
    match v.meaning?, meaningOfEntries? rest with
    | some v, some es => some (insert k v es)
    | _, _ => none

end

mutual

/-- The value with each moment as a string. A table that begins with the reserved key has no such
form. -/
def Value.withoutMoments? : Value → Option Value
  | .moment text => some (.string text)
  | .array items => (itemsWithoutMoments? items).map .array
  | .table entries =>
    match reserved? entries with
    | some _ => none
    | none => (entriesWithoutMoments? entries).map .table
  | v => some v

def itemsWithoutMoments? : List Value → Option (List Value)
  | [] => some []
  | v :: rest =>
    match v.withoutMoments?, itemsWithoutMoments? rest with
    | some v, some vs => some (v :: vs)
    | _, _ => none

def entriesWithoutMoments? : List (String × Value) → Option (List (String × Value))
  | [] => some []
  | (k, v) :: rest =>
    match v.withoutMoments?, entriesWithoutMoments? rest with
    | some v, some es => some ((k, v) :: es)
    | _, _ => none

end

end HotPatch.Toml
