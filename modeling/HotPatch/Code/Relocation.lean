import HotPatch.Code.Branch
import HotPatch.Code.Instruction

/-!
# Relocation

Instructions moved as a block. What refers to the start of one of them follows it; what refers to
any other address keeps it. Branches take the shortest form that reaches. Targets inside the block
are always in reach, of jumps even by the short form; a target out of reach stands behind the block,
and the branch goes through there.
-/

namespace HotPatch.Code

/-- How a branch holds its target. What is no branch counts as near. -/
inductive Form where
  | short
  | near
  /-- By the place of a pointer to it. -/
  | far
  deriving DecidableEq, Repr

/-- An instruction of a block, from where it comes and to where it goes. -/
structure Move where
  instruction : Instruction
  source : Address
  destination : Address
  form : Form
  deriving DecidableEq, Repr

def ReachesShort (d : Int) : Prop := -0x80 ≤ d ∧ d < 0x80

instance (d : Int) : Decidable (ReachesShort d) := inferInstanceAs (Decidable (_ ∧ _))

namespace Instruction

/-- The address that an instruction at `source` refers to. -/
def refersTo? (i : Instruction) (source : Address) : Option Address :=
  match i.role with
  | .plain => none
  | .relative _ d | .call d | .jump d | .conditional _ d | .loop _ d =>
    some (Address.wrap (source + i.length + d))

/-- Whether the instruction has a form with a displacement of eight bits. -/
def hasShortForm (i : Instruction) : Bool :=
  match i.role with
  | .jump _ | .conditional .. | .loop .. => true
  | .plain | .relative .. | .call _ => false

/-- Whether the instruction has a form that goes through a pointer. -/
def hasFarForm (i : Instruction) : Bool :=
  match i.role with
  | .call _ | .jump _ | .conditional .. | .loop .. => true
  | .plain | .relative .. => false

def movedLength (i : Instruction) : Form → Nat
  | .short =>
    match i.role with
    | .jump _ | .conditional .. | .loop .. => 2
    | .plain | .relative .. | .call _ => i.length
  | .near =>
    match i.role with
    | .plain | .relative .. => i.length
    | .call _ | .jump _ => nearLength
    | .conditional .. => 6
    | .loop .. => 9
  | .far =>
    match i.role with
    | .plain | .relative .. => i.length
    | .call _ | .jump _ => 6
    | .conditional .. => 8
    | .loop .. => 10

/-- The form of an instruction at `destination` that refers to `t`, which may be `inside` the
block. -/
def formFor (i : Instruction) (destination t : Address) (inside : Bool) : Form :=
  let gap (form : Form) : Int := (t : Int) - (destination + i.movedLength form : Nat)
  if i.hasShortForm && (inside || decide (ReachesShort (gap .short))) then .short
  else if !i.hasFarForm || inside || decide (Reaches (gap .near)) then .near
  else .far

end Instruction

/-- Places the instructions one after the other. The addresses `starts` move along. -/
def layout (starts : List Address) (source destination : Address) : List Instruction → List Move
  | [] => []
  | i :: rest =>
    let form :=
      match i.refersTo? source with
      | some t => i.formFor destination t (starts.contains t)
      | none => .near
    ⟨i, source, destination, form⟩ ::
      layout starts (source + i.length) (destination + i.movedLength form) rest

/-- The addresses at which instructions start that follow one another from `source` on. -/
def starts (source : Address) : List Instruction → List Address
  | [] => []
  | i :: rest => source :: starts (source + i.length) rest

def follow (moves : List Move) (a : Address) : Address :=
  match moves.find? fun m ↦ m.source == a with
  | some m => m.destination
  | none => a

/-- The bytes of a moved instruction that refers to `t`, or to a pointer at `t` if it is far;
nothing if it does not reach. -/
def Move.encode? (m : Move) (t : Address) : Option (List UInt8) :=
  let d : Int := t - (m.destination + m.instruction.movedLength m.form : Nat)
  match m.form with
  | .short =>
    if ReachesShort d then
      match m.instruction.role with
      | .jump _ => some (0xEB :: littleEndianInt 1 d)
      | .conditional c _ => some (UInt8.ofNat (0x70 + c) :: littleEndianInt 1 d)
      | .loop opcode _ => some (opcode :: littleEndianInt 1 d)
      | .plain | .relative .. | .call _ => none
    else none
  | .near =>
    if Reaches d then
      match m.instruction.role with
      | .plain => some m.instruction.code
      | .relative place _ =>
        some (m.instruction.code.take place ++ littleEndianInt 4 d ++
          m.instruction.code.drop (place + 4))
      | .call _ => some (0xE8 :: littleEndianInt 4 d)
      | .jump _ => some (0xE9 :: littleEndianInt 4 d)
      | .conditional c _ => some (0x0F :: UInt8.ofNat (0x80 + c) :: littleEndianInt 4 d)
      | .loop opcode _ => some (opcode :: 0x02 :: 0xEB :: 0x05 :: 0xE9 :: littleEndianInt 4 d)
    else none
  | .far =>
    if Reaches d then
      match m.instruction.role with
      | .call _ => some (0xFF :: 0x15 :: littleEndianInt 4 d)
      | .jump _ => some (0xFF :: 0x25 :: littleEndianInt 4 d)
      | .conditional c _ =>
        some (UInt8.ofNat (0x70 + (c ^^^ 1)) :: 0x06 :: 0xFF :: 0x25 :: littleEndianInt 4 d)
      | .loop opcode _ =>
        some (opcode :: 0x02 :: 0xEB :: 0x06 :: 0xFF :: 0x25 :: littleEndianInt 4 d)
      | .plain | .relative .. => none
    else none

/-- The bytes of the moved instructions, each in its place, and the targets of those that are far.
The first of their pointers stands at `pointer`. -/
def encodeMoves? (all : List Move) (pointer : Address) :
    List Move → Option (List UInt8 × List Address)
  | [] => some ([], [])
  | m :: rest =>
    match m.instruction.refersTo? m.source with
    | none =>
      (encodeMoves? all pointer rest).map fun (more, targets) ↦
        (m.instruction.code ++ more, targets)
    | some t =>
      if m.form = .far then
        match m.encode? pointer, encodeMoves? all (pointer + 8) rest with
        | some code, some (more, targets) => some (code ++ more, t :: targets)
        | _, _ => none
      else
        match m.encode? (follow all t), encodeMoves? all pointer rest with
        | some code, some (more, targets) => some (code ++ more, targets)
        | _, _ => none

/-- The bytes that fill up to the next multiple of eight. -/
def padding (a : Address) : Nat := (8 - a % 8) % 8

/-- Moves a block of instructions from `source` to `destination`; nothing if a displacement does not
fit any more. Pointers stand behind it at multiples of eight, after breakpoints. -/
def relocate? (source destination : Address) (block : List Instruction) : Option (List UInt8) :=
  let moves := layout (starts source block) source destination block
  let stop := moves.foldl (fun a m ↦ a + m.instruction.movedLength m.form) destination
  match encodeMoves? moves (stop + padding stop) moves with
  | none => none
  | some (code, []) => some code
  | some (code, targets) =>
    some (code ++ List.replicate (padding stop) 0xCC ++ targets.flatMap (littleEndian 8))

/-! ## Instruction sets -/

/-- How the code of a process is read and moved. All that is known of a decoded instruction is what
its type says: it has at least one byte and at most `maxLength`. -/
structure InstructionSet where
  /-- The instruction at the front of some bytes. -/
  decode? : List UInt8 → Option Instruction
  /-- The code of a block of instructions when it is moved. -/
  relocate? (source destination : Address) (block : List Instruction) : Option (List UInt8)

/-- The instructions that prologues are usually made of. -/
def InstructionSet.usual : InstructionSet := ⟨Instruction.decode?, Code.relocate?⟩

end HotPatch.Code
