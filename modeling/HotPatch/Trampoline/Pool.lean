import HotPatch.Memory.Basic
import HotPatch.Text.Hex
import HotPatch.Trampoline.Chunk
import HotPatch.Trampoline.Walk

/-!
# The trampoline pool

Pages of executable memory mapped near the code they serve, each carved into slots. A request is
served by the first page inside its window that has room; else a page is mapped at the nearest
unmapped place, first looking upward from the origin, then downward.
-/

namespace HotPatch.Trampoline

/-- The furthest distance between an origin and a slot that serves it. -/
def reach : Nat := 0x80000000

/-- Everything in reach of an origin, held within the address space. -/
def window (origin : Address) : Span :=
  ⟨origin - reach, min (origin + reach) (addressLimit - 1)⟩

structure PoolPage where
  base : Address
  length : Nat
  chunks : List Chunk
  deriving DecidableEq, Repr

structure Slot where
  base : Address
  offset : Nat
  length : Nat
  deriving DecidableEq, Repr

namespace Slot

def address (s : Slot) : Address := s.base + s.offset

def print (s : Slot) : String :=
  "ExecutableMemory \x7b address: " ++ Text.address s.address ++ s!", len: {s.length} \x7d"

end Slot

/-- What happens to slots. -/
inductive Dealing where
  | lent (s : Slot)
  | returned (s : Slot)
  /-- The address of the slot is given to an interceptor. -/
  | published (s : Slot)
  deriving DecidableEq, Repr

namespace PoolPage

/-- A page that was just mapped is one free chunk. -/
def fresh (base : Address) (length : Nat) : PoolPage := ⟨base, length, [⟨0, length, true⟩]⟩

/-- Carves a slot of `size` bytes out of the page. -/
def serve? (p : PoolPage) (size : Nat) : Option (PoolPage × Slot) :=
  (Chunk.allocate? size p.chunks).map fun (chunks, offset) ↦
    ({ p with chunks }, ⟨p.base, offset, size⟩)

/-- Whether the page lies inside the window. -/
def Inside (p : PoolPage) (w : Span) : Prop :=
  w.Contains p.base ∧ w.Contains (p.base + p.length - 1)

instance (p : PoolPage) (w : Span) : Decidable (p.Inside w) := inferInstanceAs (Decidable (_ ∧ _))

end PoolPage

/-- The pages mapped so far, oldest first. They are never unmapped. -/
structure Pool where
  pages : List PoolPage
  deriving DecidableEq, Repr

/-- The message when no executable memory is left near an origin. -/
def outOfMemoryMessage (origin : Address) : String :=
  "no executable memory available within range of " ++ Text.address origin

namespace Pool

def empty : Pool := ⟨[]⟩

/-- Serves a request from the first page inside the window that has room. -/
def reuse? (w : Span) (size : Nat) : List PoolPage → Option (List PoolPage × Slot)
  | [] => none
  | p :: rest =>
    match if p.Inside w then p.serve? size else none with
    | some (p, slot) => some (p :: rest, slot)
    | none => (reuse? w size rest).map fun r ↦ (p :: r.1, r.2)

/-- The number of pages for `size` bytes, at least one. -/
def pageCount (size : Nat) : Nat := max ((size + pageSize - 1) / pageSize) 1

/-- Whether `length` bytes from `a` on end within the window. -/
def fits (w : Span) (length : Nat) (a : Address) : Bool :=
  a + length < addressLimit && a + length ≤ w.stop

/-- The address from which `length` bytes are mapped for `origin`. Of what they cover, only the page
that they start with is known to be free. -/
def place? (m : Memory) (w : Span) (origin : Address) (length : Nat) : Option Address :=
  match (Walk.start origin w .up).find? m (fits w length) with
  | some a => some a
  | none => (Walk.start origin w .down).find? m (fits w length)

/-- Hands out `size` bytes inside the window, or nothing if no page is free there. -/
def allocateIn (w : Span) (pool : Pool) (m : Memory) (origin : Address) (size : Nat) :
    Option Slot × Pool × Memory :=
  match reuse? w size pool.pages with
  | some (pages, slot) => (some slot, ⟨pages⟩, m)
  | none =>
    match place? m w origin (pageCount size * pageSize) with
    | none => (none, pool, m)
    | some base =>
      match (PoolPage.fresh base (pageCount size * pageSize)).serve? size with
      | none => (none, pool, m)
      | some (page, slot) =>
        (some slot, ⟨pool.pages ++ [page]⟩, m.map (base / pageSize) (pageCount size) .all)

/-- Hands out `size` bytes near `origin`, or nothing if no page is free in reach. -/
def allocate (pool : Pool) (m : Memory) (origin : Address) (size : Nat) :
    Option Slot × Pool × Memory :=
  pool.allocateIn (window origin) m origin size

/-- Takes a slot back. Its page stays mapped and keeps its bytes. -/
def free (pool : Pool) (s : Slot) : Pool :=
  ⟨pool.pages.map fun p ↦
    if p.base = s.base then { p with chunks := Chunk.release s.offset p.chunks } else p⟩

end Pool

end HotPatch.Trampoline
