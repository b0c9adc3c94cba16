import HotPatch.Code.Relocation
import HotPatch.Memory.Write
import HotPatch.Setting.Value
import HotPatch.Trampoline.Pool
import HotPatch.Version

/-!
# The host

The process that is being patched, as far as the engine can see and change it, together with what
the engine has reported so far.
-/

namespace HotPatch

inductive LogLevel where
  | error
  | warn
  | info
  | debug
  | trace
  deriving DecidableEq, Repr

structure LogRecord where
  level : LogLevel
  message : String
  deriving DecidableEq, Repr

inductive HookCall where
  | prepare
  | attach
  | detach
  deriving DecidableEq, Repr

namespace HookCall

def name : HookCall → String
  | .prepare => "prepare"
  | .attach => "attach"
  | .detach => "detach"

end HookCall

inductive Event where
  | hook (name : String) (call : HookCall) (failed : Bool)
  | uninstalled (patch : String)
  | version (v : Version)
  | applied (count : Nat)
  | image (base : Address) (size : Nat)
  | setting (name : String) (value : Option Setting.Value)
  deriving Repr

/-- A write, by the bytes that were at an address and the bytes, as many, that replace them. -/
structure UndoRecord where
  address : Address
  before : List UInt8
  after : List UInt8
  length_eq : before.length = after.length
  deriving DecidableEq, Repr

/-- The record of a write that is to be made. -/
def UndoRecord.ofWrite (m : Memory) (a : Address) (new : List UInt8) : UndoRecord :=
  ⟨a, m.bytes a new.length, new, m.length_bytes a _⟩

structure Host where
  memory : Memory
  /-- How its code is read and moved. -/
  instructions : Code.InstructionSet
  /-- The slots through which interceptors reach what they replaced. -/
  passages : Nat → Address
  pool : Trampoline.Pool
  /-- What happened to the slots of the pool, the latest first. -/
  dealings : List Trampoline.Dealing
  /-- Addresses of objects that the host creates in its own time. -/
  deferred : Nat → Option Address
  /-- What the host wrote to its own memory, the latest first. -/
  ownWrites : List UndoRecord
  /-- The two lengths of each write that was asked to put fewer or more bytes than it was to find,
  the latest first. -/
  uneven : List (Nat × Nat)
  log : List LogRecord
  events : List Event

namespace Host

def ofMemory (m : Memory) : Host :=
  ⟨m, .usual, fun _ ↦ 0, .empty, [], fun _ ↦ none, [], [], [], []⟩

def note (h : Host) (level : LogLevel) (message : String) : Host :=
  { h with log := ⟨level, message⟩ :: h.log }

def report (h : Host) (e : Event) : Host := { h with events := e :: h.events }

/-- The host writes to its own memory, which no protection hinders. -/
def poke (h : Host) (a : Address) (bs : List UInt8) : Host :=
  { h with
    memory := h.memory.store a bs
    ownWrites := .ofWrite h.memory a bs :: h.ownWrites }

/-- Stores an address through which an interceptor reaches what it replaced. -/
def setPassage (h : Host) (slot : Nat) (a : Address) : Host :=
  { h with passages := fun i ↦ if i = slot then a else h.passages i }

def setDeferred (h : Host) (cell : Nat) (a : Option Address) : Host :=
  { h with deferred := fun i ↦ if i = cell then a else h.deferred i }

/-- Asserts that a write puts as many bytes as it finds. An assertion that fails is noted, and the
write goes on. -/
def assertEven (h : Host) (expected new : List UInt8) : Host :=
  if expected.length = new.length then h
  else { h with uneven := (expected.length, new.length) :: h.uneven }

/-- Writes `new` over `expected`; a mismatch is reported with the bytes found. -/
def write (h : Host) (a : Address) (expected new : List UInt8) : Except MemoryError Unit × Host :=
  match h.memory.writeChecked a expected new with
  | (.error (.torn a), m) =>
    (.error (.torn a), { h.assertEven expected new with memory := m }.note .error
      ("Write at " ++ Text.address a ++ " failed part-way and could not be undone"))
  | (r, m) => (r, { h.assertEven expected new with memory := m })

/-- As `write`, but a mismatch is reported by its range alone and nothing is logged, so that it may
run while the other threads stand still. -/
def writeQuietly (h : Host) (a : Address) (expected new : List UInt8) :
    Except MemoryError Unit × Host :=
  match h.memory.writeExact a expected new with
  | (r, m) => (r, { h.assertEven expected new with memory := m })

def allocate (h : Host) (origin : Address) (size : Nat) : Option Trampoline.Slot × Host :=
  match h.pool.allocate h.memory origin size with
  | (none, pool, m) => (none, { h with pool := pool, memory := m })
  | (some slot, pool, m) =>
    let h := { h with pool := pool, memory := m, dealings := .lent slot :: h.dealings }
    (some slot, h.note .trace
      (s!"Allocated {size} executable bytes at " ++ Text.address slot.address ++ " for " ++
        Text.address origin))

/-- Writes to the front of memory that was handed out. -/
def fill (h : Host) (slot : Trampoline.Slot) (bs : List UInt8) : Host :=
  { h with memory := h.memory.store slot.address bs }

def free (h : Host) (slot : Trampoline.Slot) : Host :=
  { h with pool := h.pool.free slot, dealings := .returned slot :: h.dealings }

/-- Stores the address of memory that was handed out where an interceptor finds it. -/
def publish (h : Host) (passage : Nat) (slot : Trampoline.Slot) : Host :=
  { h.setPassage passage slot.address with dealings := .published slot :: h.dealings }

/-! ## What leaves memory alone -/

@[simp] theorem memory_note (h : Host) (level : LogLevel) (message : String) :
    (h.note level message).memory = h.memory := rfl

@[simp] theorem memory_report (h : Host) (e : Event) : (h.report e).memory = h.memory := rfl

@[simp] theorem memory_setPassage (h : Host) (slot : Nat) (a : Address) :
    (h.setPassage slot a).memory = h.memory := rfl

@[simp] theorem memory_free (h : Host) (slot : Trampoline.Slot) :
    (h.free slot).memory = h.memory := rfl

@[simp] theorem memory_assertEven (h : Host) (expected new : List UInt8) :
    (h.assertEven expected new).memory = h.memory := by
  unfold assertEven
  split <;> rfl

theorem uneven_assertEven (h : Host) (expected new : List UInt8) :
    (h.assertEven expected new).uneven =
      if expected.length = new.length then h.uneven
      else (expected.length, new.length) :: h.uneven := by
  unfold assertEven
  split <;> rfl

theorem assertEven_of_length_eq {h : Host} {expected new : List UInt8}
    (hlength : expected.length = new.length) : h.assertEven expected new = h := if_pos hlength

/-- Each call of different lengths is noted, be it a write that goes through or not. -/
theorem uneven_write (h : Host) (a : Address) (expected new : List UInt8) :
    (h.write a expected new).2.uneven =
      if expected.length = new.length then h.uneven
      else (expected.length, new.length) :: h.uneven := by
  rw [← uneven_assertEven]
  unfold write
  split <;> rfl

theorem uneven_writeQuietly (h : Host) (a : Address) (expected new : List UInt8) :
    (h.writeQuietly a expected new).2.uneven =
      if expected.length = new.length then h.uneven
      else (expected.length, new.length) :: h.uneven :=
  h.uneven_assertEven expected new

example : ((ofMemory .empty).write 0x1000 [0x90] [0x55, 0xC3]).2.uneven = [(1, 2)] := by decide

@[simp] theorem uneven_allocate (h : Host) (origin : Address) (size : Nat) :
    (h.allocate origin size).2.uneven = h.uneven := by
  unfold allocate
  split <;> rfl

theorem length_eq_of_write {h h' : Host} {a : Address} {expected new : List UInt8}
    (hwrite : h.write a expected new = (.ok (), h')) : expected.length = new.length := by
  unfold write at hwrite
  rcases hchecked : h.memory.writeChecked a expected new with ⟨e | u, m⟩
  · rw [hchecked] at hwrite
    cases e <;> cases hwrite
  · exact Memory.length_eq_of_writeChecked hchecked

end Host

end HotPatch
