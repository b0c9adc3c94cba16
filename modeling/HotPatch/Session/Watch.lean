import HotPatch.Host

/-!
# Watching a host

What changed since somebody last looked: bytes of the watched pages that may be read, passages to
replaced functions, events and log records. What the host wrote itself counts as seen.
-/

namespace HotPatch

structure Observation where
  /-- Maximal runs of changed bytes, by their distance from the first watched address. -/
  changed : List (Nat × List UInt8)
  passages : List (Nat × Address)
  events : List Event
  log : List LogRecord

structure Watch where
  first : Nat
  pages : List Bool
  seen : Array UInt8
  passages : List Address

namespace Watch

def slotCount : Nat := 8

def start (w : Watch) : Address := w.first * pageSize

def bytes (first count : Nat) (m : Memory) : Array UInt8 :=
  Array.ofFn fun i : Fin (count * pageSize) ↦ m.byte (first * pageSize + i)

/-- Begins to watch `count` pages; pages that are not mapped are of no interest, now or later. -/
def begin (first count : Nat) (h : Host) : Watch where
  first := first
  pages := (List.range count).map fun i ↦ (h.memory.page (first + i)).isSome
  seen := bytes first count h.memory
  passages := (List.range slotCount).map h.passages

/-- Puts bytes at an address into what was seen. -/
def putSeen (start : Address) (seen : Array UInt8) (a : Address) : List UInt8 → Array UInt8
  | [] => seen
  | b :: rest =>
    putSeen start (if start ≤ a then seen.setIfInBounds (a - start) b else seen) (a + 1) rest

/-- What the host wrote itself, the latest first, counts as seen. -/
def acknowledge (start : Address) (seen : Array UInt8) (writes : List UndoRecord) : Array UInt8 :=
  writes.foldr (fun w seen ↦ putSeen start seen w.address w.after) seen

/-- The runs of offsets below `n` that have a new byte, in front of `runs`. -/
def collect (new : Nat → Option UInt8) : Nat → List (Nat × List UInt8) → List (Nat × List UInt8)
  | 0, runs => runs
  | n + 1, runs =>
    match new n with
    | none => collect new n runs
    | some b =>
      match runs with
      | (o, bs) :: rest =>
        if o = n + 1 then collect new n ((n, b :: bs) :: rest)
        else collect new n ((n, [b]) :: (o, bs) :: rest)
      | [] => collect new n [(n, [b])]

/-- The passages that differ from those seen, with their slots. -/
def changedPassages (old new : List Address) : List (Nat × Address) :=
  ((List.range slotCount).zip (old.zip new)).filterMap fun (i, a, b) ↦
    if a = b then none else some (i, b)

/-- Looks at the host. Its records and events are taken away, and its pages are kept in tables. -/
def look (w : Watch) (h : Host) : Observation × Watch × Host :=
  let count := w.pages.length
  let m := h.memory.tabulate w.first count
  let now := bytes w.first count m
  let readable := ((List.range count).zip w.pages).toArray.map fun (i, watched) ↦
    watched && m.pageReadable (w.first + i)
  let seen := acknowledge w.start w.seen h.ownWrites
  let new (i : Nat) : Option UInt8 :=
    if readable[i / pageSize]?.getD false && now[i]? != seen[i]? then now[i]? else none
  let passages := (List.range slotCount).map h.passages
  ({ changed := collect new (count * pageSize) []
     passages := changedPassages w.passages passages
     events := h.events.reverse
     log := h.log.reverse },
   { w with
     seen := Array.ofFn fun i : Fin seen.size ↦
       if readable[i.1 / pageSize]?.getD false then (now[i.1]?).getD seen[i] else seen[i]
     passages },
   { h with memory := m, ownWrites := [], events := [], log := [] })

end Watch

end HotPatch
