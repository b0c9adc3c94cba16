import HotPatch.Number.Double

/-!
# TOML values

The values of a TOML document. A table keeps its entries in the order of their keys, by code points,
so that equal tables are equal lists. Only while a document is read they have the order of its text.
-/

namespace HotPatch.Toml

inductive Value where
  | string (s : String)
  | integer (i : Int)
  | float (x : Double)
  | boolean (b : Bool)
  /-- A date, a time or both, in its one written form. -/
  | moment (text : String)
  | array (items : List Value)
  | table (entries : List (String × Value))

namespace Value

mutual

/-- Whether two values are the same. -/
def same : Value → Value → Bool
  | .string s, .string t => s == t
  | .integer i, .integer j => i == j
  | .float x, .float y => x == y
  | .boolean b, .boolean c => b == c
  | .moment s, .moment t => s == t
  | .array vs, .array ws => sameItems vs ws
  | .table es, .table fs => sameEntries es fs
  | _, _ => false

def sameItems : List Value → List Value → Bool
  | [], [] => true
  | v :: vs, w :: ws => v.same w && sameItems vs ws
  | _, _ => false

def sameEntries : List (String × Value) → List (String × Value) → Bool
  | [], [] => true
  | (k, v) :: es, (l, w) :: fs => k == l && v.same w && sameEntries es fs
  | _, _ => false

end

mutual

theorem same_iff (v w : Value) : v.same w = true ↔ v = w := by
  cases v with
  | string s => cases w <;> simp [same]
  | integer i => cases w <;> simp [same]
  | float x => cases w <;> simp [same]
  | boolean b => cases w <;> simp [same]
  | moment s => cases w <;> simp [same]
  | array vs => cases w <;> simp [same, sameItems_iff vs]
  | table es => cases w <;> simp [same, sameEntries_iff es]

theorem sameItems_iff (vs ws : List Value) : sameItems vs ws = true ↔ vs = ws := by
  cases vs with
  | nil => cases ws <;> simp [sameItems]
  | cons v vs => cases ws <;> simp [sameItems, same_iff v, sameItems_iff vs]

theorem sameEntries_iff (es fs : List (String × Value)) : sameEntries es fs = true ↔ es = fs := by
  cases es with
  | nil => cases fs <;> simp [sameEntries]
  | cons e es =>
      obtain ⟨k, v⟩ := e
      cases fs <;> simp [sameEntries, same_iff v, sameEntries_iff es, Prod.ext_iff]

end

instance : DecidableEq Value := fun v w ↦ decidable_of_iff _ (same_iff v w)

end Value

/-- A whole document is a table. -/
abbrev Document := List (String × Value)

def lookup {α : Type} (k : String) : List (String × α) → Option α
  | [] => none
  | (k', x) :: rest => if k' = k then some x else lookup k rest

/-- Puts `x` under a key, over what stood there, keeping the order of keys. -/
def insert {α : Type} (k : String) (x : α) : List (String × α) → List (String × α)
  | [] => [(k, x)]
  | (k', y) :: rest =>
    if k = k' then (k, x) :: rest
    else if k < k' then (k, x) :: (k', y) :: rest
    else (k', y) :: insert k x rest

theorem lookup_insert {α : Type} (k k' : String) (x : α) (es : List (String × α)) :
    lookup k' (insert k x es) = if k = k' then some x else lookup k' es := by
  induction es with
  | nil => simp [insert, lookup]
  | cons e es ih => grind [insert, lookup]

end HotPatch.Toml
