/-!
# Chunks of a page

A page is a list of adjoining chunks, each free or in use. A request takes the smallest free chunk
that suffices; what it does not need goes to a free neighbour or becomes a free chunk of its own.
-/

namespace HotPatch.Trampoline

structure Chunk where
  offset : Nat
  size : Nat
  free : Bool
  deriving DecidableEq, Repr, Inhabited

namespace Chunk

/-- The surplus of the smallest free chunk with at least `size` bytes. -/
def leastSurplus? (size : Nat) : List Chunk → Option Nat
  | [] => none
  | c :: rest =>
    let others := leastSurplus? size rest
    if c.free && size ≤ c.size then
      match others with
      | some d => some (min (c.size - size) d)
      | none => some (c.size - size)
    else others

/-- Takes `size` bytes from the first free chunk with exactly `surplus` more. The surplus goes to
the free chunk before it, else to the free chunk after it, and then the chunk stays marked as free;
with neither, it becomes a free chunk behind the one in use. The answer is the offset of what was
taken. -/
def take (size surplus : Nat) (before : Option Chunk) : List Chunk → List Chunk × Option Nat
  | [] => (before.toList, none)
  | c :: rest =>
    if c.free && c.size == size + surplus then
      if surplus = 0 then (before.toList ++ { c with free := false } :: rest, some c.offset)
      else
        match before, rest with
        | some b, _ =>
          if b.free then
            ({ b with size := b.size + surplus } ::
              { c with offset := c.offset + surplus, size := size } :: rest,
              some (c.offset + surplus))
          else takeForward size surplus [b] c rest
        | none, rest => takeForward size surplus [] c rest
    else
      let (rest, taken) := take size surplus (some c) rest
      (before.toList ++ rest, taken)
where
  /-- The surplus goes forward. -/
  takeForward (size surplus : Nat) (before : List Chunk) (c : Chunk) :
      List Chunk → List Chunk × Option Nat
    | n :: rest =>
      if n.free then
        (before ++ { c with size := size } ::
          { n with offset := n.offset - surplus, size := n.size + surplus } :: rest, some c.offset)
      else
        (before ++ { c with size := size, free := false } ::
          ⟨c.offset + size, surplus, true⟩ :: n :: rest, some c.offset)
    | [] =>
      (before ++ [{ c with size := size, free := false }, ⟨c.offset + size, surplus, true⟩],
        some c.offset)

/-- Whether `c` is the last chunk at `offset`, given those behind it. Chunks before it there are
empty. -/
def isAt (offset : Nat) (c : Chunk) (behind : List Chunk) : Bool :=
  c.offset == offset && behind.head?.all (·.offset != offset)

/-- Gives the chunk at `offset` back: it joins the free chunk before it, else the free chunk after
it, else it is marked as free. -/
def release (offset : Nat) : List Chunk → List Chunk
  | [] => []
  | [c] => [if c.isAt offset [] then { c with free := true } else c]
  | c :: d :: rest =>
    if c.isAt offset (d :: rest) then
      if d.free then { d with offset := c.offset, size := c.size + d.size } :: rest
      else { c with free := true } :: d :: rest
    else if d.isAt offset rest && c.free then { c with size := c.size + d.size } :: rest
    else c :: release offset (d :: rest)

/-- Takes `size` bytes from the best chunk, if one suffices. -/
def allocate? (size : Nat) (chunks : List Chunk) : Option (List Chunk × Nat) :=
  match leastSurplus? size chunks with
  | none => none
  | some surplus =>
    match take size surplus none chunks with
    | (chunks, some offset) => some (chunks, offset)
    | (_, none) => none

end Chunk

end HotPatch.Trampoline
