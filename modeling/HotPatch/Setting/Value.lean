import HotPatch.Number.Decimal
import HotPatch.Number.LittleEndian

/-!
# Setting values

The values that a setting can hold, their conversions to one another, and the bytes they become in
memory. The kind of a setting is the type and the bounds of its values.
-/

namespace HotPatch.Setting

inductive Value where
  | bool (b : Bool)
  | int (i : Int)
  | float (x : Double)
  | choice (i : Nat)
  deriving DecidableEq, Repr

namespace Value

/-- The integer that `i` stands for in two's complement of 64 bits. -/
def signed64 (i : Int) : Int := (i + 0x8000000000000000) % 0x10000000000000000 - 0x8000000000000000

/-- Floats lose their fraction; switches count as zero and one. -/
def toInt : Value → Int
  | .bool b => if b then 1 else 0
  | .int i => i
  | .float x => x.toInt
  | .choice i => signed64 i

def toFloat : Value → Double
  | .float x => x
  | v => .ofInt v.toInt

/-- Every number but zero counts as on. -/
def toBool : Value → Bool
  | .bool b => b
  | .float x => !x.same (.ofInt 0)
  | v => v.toInt != 0

/-- Equality as the program sees it: floats are compared as numbers. -/
def same : Value → Value → Bool
  | .float x, .float y => x.same y
  | v, w => v == w

def print : Value → String
  | .bool b => s!"Bool({b})"
  | .int i => s!"Int({i})"
  | .float x => "Float(" ++ x.text Double.printed ++ ")"
  | .choice i => s!"Enum({i})"

end Value

inductive Width where
  | u8
  | i32
  | u32
  | f32
  | f64
  deriving DecidableEq, Repr

namespace Width

def all : List Width := [.u8, .i32, .u32, .f32, .f64]

def name : Width → String
  | .u8 => "U8"
  | .i32 => "I32"
  | .u32 => "U32"
  | .f32 => "F32"
  | .f64 => "F64"

def length : Width → Nat
  | .u8 => 1
  | .i32 | .u32 | .f32 => 4
  | .f64 => 8

/-- The bytes of a value, lowest first; integers that do not fit lose their upper bits. -/
def encode (w : Width) (v : Value) : List UInt8 :=
  match w with
  | .u8 => littleEndianInt 1 v.toInt
  | .i32 | .u32 => littleEndianInt 4 v.toInt
  | .f32 => littleEndian 4 v.toFloat.toSingle
  | .f64 => littleEndian 8 v.toFloat.bits.toNat

@[simp] theorem length_encode (w : Width) (v : Value) : (w.encode v).length = w.length := by
  cases w <;> simp [encode, length, littleEndianInt]

end Width

inductive Kind where
  | bool
  | int (min max : Int)
  | float (min max : Double)
  /-- One of a list of options, held by its position. -/
  | choice (options : List String)
  deriving DecidableEq, Repr

namespace Kind

def typeName : Kind → String
  | .bool => "a boolean"
  | .int .. => "an integer"
  | .float .. => "a number"
  | .choice _ => "an option"

/-- A number brought within bounds; what is no number becomes the lower bound. -/
def clampFloat (min max x : Double) : Double :=
  if x.isNaN then min else (x.max min).min max

/-- Brings a value within the bounds of the kind. Integers are accepted as floats; any other value
of the wrong type is refused. -/
def clamp? : Kind → Value → Option Value
  | .bool, .bool b => some (.bool b)
  | .int min max, .int i => some (.int (Min.min (Max.max i min) max))
  | .float min max, .float x => some (.float (clampFloat min max x))
  | .float min max, .int i => some (.float (clampFloat min max (.ofInt i)))
  | .choice options, .choice i => some (.choice (Nat.min i (options.length - 1)))
  | _, _ => none

end Kind

end HotPatch.Setting
