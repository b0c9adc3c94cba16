import HotPatch.Hook.Inline
import HotPatch.Proofs.Hook.Stealing
import HotPatch.Proofs.Memory.Access
import HotPatch.Proofs.UndoRecord
import Mathlib.Data.List.Basic

/-!
# Preparing inline hooks

A hook is prepared by stealing the first instructions of its target. The redirect covers them
exactly, and the trampoline that holds them leads back to the first instruction that was not stolen.
-/

namespace HotPatch

open Code

namespace Memory

variable {m : Memory} {a d : Address}

/-- An absolute jump to `d` stands at `a`: it goes to the address that follows its code. -/
structure JumpsTo (m : Memory) (a d : Address) : Prop where
  code : m.bytes a 6 = [0xFF, 0x25, 0, 0, 0, 0]
  address : ofLittleEndian (m.bytes (a + 6) 8) = d

theorem jumpsTo_of_bytes (hd : d < addressLimit)
    (h : m.bytes a jumpAbsoluteLength = jumpAbsolute d) : m.JumpsTo a d := by
  have hparts : m.bytes a 6 ++ m.bytes (a + 6) 8 = [0xFF, 0x25, 0, 0, 0, 0] ++ littleEndian 8 d :=
    (m.bytes_add a 6 8).symm.trans h
  obtain ⟨hcode, haddress⟩ := List.append_inj hparts (length_bytes ..)
  refine ⟨hcode, ?_⟩
  rw [haddress, ofLittleEndian_littleEndian]
  exact Nat.mod_eq_of_lt hd

end Memory

namespace InlineHook

open Prologue Trampoline

variable {c : InstructionSet} {k : InlineHook} {h h₁ h₂ : Host} {target : Address}
  {block : List Instruction} {slot : Slot} {a : Address}

/-! ## The ways a preparation goes -/

/-- How a slot is filled. What the redirect replaces is captured after the code was written. -/
inductive Filling (k : InlineHook) (block : List Instruction) (slot : Slot) (h : Host) :
    Except HookError Redirect × Host → Prop
  /-- The instructions cannot be moved, or the slot has no room for them. -/
  | unwritten {e : HookError} (he : ∀ a, e ≠ .invalidInstruction a) :
      Filling k block slot h (.error e, h)
  | unread {code : List UInt8} {e : MemoryError} (hroom : code.length ≤ slot.length) :
      Filling k block slot h (.error (.memory e), h.fill slot code)
  | filled {code : List UInt8} {r : UndoRecord}
      (hcode : trampoline? h.instructions k.target slot.address block = some code)
      (hroom : code.length ≤ slot.length)
      (hcapture : UndoRecord.capture (h.fill slot code).memory k.target
        (redirect k.detour (size block)) = .ok r) :
      Filling k block slot h (.ok ⟨slot, r, false⟩, h.fill slot code)

/-- However the code turns out, filling a slot goes one of these three ways. -/
theorem filling (k : InlineHook) (block : List Instruction) (slot : Slot) (h : Host) :
    k.Filling block slot h (k.fill block slot h) := by
  unfold fill
  split
  · exact .unwritten nofun
  · rename_i code hcode
    split
    · exact .unwritten nofun
    · rename_i hroom
      dsimp only
      split
      · exact .unread (Nat.not_lt.mp hroom)
      · rename_i r hcapture
        exact .filled hcode (Nat.not_lt.mp hroom) hcapture

inductive Preparing (k : InlineHook) (h : Host) : Except HookError Unit × InlineHook × Host → Prop
  | done (hdone : k.stage ≠ .fresh) : Preparing k h (.ok (), k, h)
  | unstolen {e : HookError} (hfresh : k.stage = .fresh) (hsteal : k.steal h = .error e) :
      Preparing k h (.error e, k, h)
  | unlent {block : List Instruction} {h₁ : Host} (hfresh : k.stage = .fresh)
      (hsteal : k.steal h = .ok block)
      (hnone : h.allocate k.target (room block) = (none, h₁)) :
      Preparing k h (.error (.outOfMemory k.target), k, h₁)
  | unfilled {block : List Instruction} {slot : Slot} {h₁ h₂ : Host} {e : HookError}
      (hfresh : k.stage = .fresh) (hsteal : k.steal h = .ok block)
      (hlent : h.allocate k.target (room block) = (some slot, h₁))
      (hfill : k.Filling block slot h₁ (.error e, h₂)) :
      Preparing k h (.error e, k, h₂.free slot)
  | prepared {block : List Instruction} {slot : Slot} {h₁ h₂ : Host} {work : Redirect}
      {level : LogLevel} {message : String}
      (hfresh : k.stage = .fresh) (hsteal : k.steal h = .ok block)
      (hlent : h.allocate k.target (room block) = (some slot, h₁))
      (hfill : k.Filling block slot h₁ (.ok work, h₂)) :
      Preparing k h (.ok (), { k with stage := .ready work }, h₂.note level message)

/-- Preparing breaks off at the first step that fails, and returns the slot if it has one by then.
-/
theorem preparing (k : InlineHook) (h : Host) : k.Preparing h (k.prepare h) := by
  unfold prepare
  split
  · rename_i hstage
    exact .done (by rw [hstage]; nofun)
  · rename_i hstage
    exact .done (by rw [hstage]; nofun)
  · rename_i hfresh
    split
    · rename_i e hsteal
      exact .unstolen hfresh hsteal
    · rename_i block hsteal
      split
      · rename_i h₁ hnone
        exact .unlent hfresh hsteal hnone
      · rename_i slot h₁ hlent
        have hfill := k.filling block slot h₁
        split
        · rename_i heq
          exact .unfilled hfresh hsteal hlent (heq ▸ hfill)
        · rename_i heq
          exact .prepared hfresh hsteal hlent (heq ▸ hfill)

/-! ## What is stolen from the function -/

theorem steal_eq_ok (hs : k.steal h = .ok block) :
    h.memory.Accessible k.target lookahead ∧
      Prologue.steal h.instructions k.target (h.memory.bytes k.target lookahead) = .ok block := by
  unfold steal at hs
  cases hread : h.memory.readBytes k.target lookahead with
  | error e =>
      rw [hread] at hs
      cases hs
  | ok bytes =>
      obtain ⟨haccessible, rfl⟩ := Memory.readBytes_eq_ok_iff.mp hread
      rw [hread] at hs
      exact ⟨haccessible, hs⟩

theorem steal_eq_invalid (hs : k.steal h = .error (.invalidInstruction a)) :
    Prologue.steal h.instructions k.target (h.memory.bytes k.target lookahead) =
      .error (.invalidInstruction a) := by
  unfold steal at hs
  cases hread : h.memory.readBytes k.target lookahead with
  | error e =>
      rw [hread] at hs
      cases hs
  | ok bytes =>
      obtain ⟨-, rfl⟩ := Memory.readBytes_eq_ok_iff.mp hread
      rw [hread] at hs
      exact hs

theorem room_le (hs : k.steal h = .ok block) : room block ≤ pageSize :=
  Prologue.room_le (steal_eq_ok hs).2

/-- A preparation meets what is no instruction only when it steals. -/
theorem Preparing.steal_eq {o : Except HookError Unit × InlineHook × Host}
    (hp : k.Preparing h o) (he : o.1 = .error (.invalidInstruction a)) :
    k.steal h = .error (.invalidInstruction a) := by
  cases hp with
  | done => cases he
  | unstolen _ hsteal =>
      cases he
      exact hsteal
  | unlent => cases he
  | unfilled _ _ _ hfill =>
      cases he
      cases hfill with
      | unwritten he => exact absurd rfl (he a)
  | prepared => cases he

/-- What a preparation reports as no instruction is none whatever follows it. -/
theorem prepare_eq_invalid (hc : h.instructions.FromFront)
    (he : (k.prepare h).1 = .error (.invalidInstruction a)) :
    ∃ n, n < 14 ∧ a = k.target + n ∧
      ∀ more, h.instructions.decode? (h.memory.bytes a 15 ++ more) = none := by
  have hsteal := steal_eq_invalid ((k.preparing h).steal_eq he)
  obtain ⟨n, hn, rfl, hnone⟩ := not_decoded_of_steal hsteal
  have hlt : n < 14 := hn
  refine ⟨n, hlt, rfl, fun more ↦ ?_⟩
  have hread : (h.memory.bytes k.target lookahead).drop n =
      h.memory.bytes (k.target + n) 15 ++ h.memory.bytes (k.target + n + 15) (13 - n) := by
    have hleft : lookahead - n = 15 + (13 - n) := by
      change 28 - n = _
      omega
    rw [Memory.drop_bytes _ _ (Nat.le_trans (Nat.le_of_lt hn) (by decide)), hleft,
      Memory.bytes_add]
  have hlong : maxLength ≤ (h.memory.bytes (k.target + n) 15).length := by
    rw [Memory.length_bytes]
    exact Nat.le_refl 15
  rw [hread, hc.enough _ _ hlong] at hnone
  rw [hc.enough _ more hlong, hnone]

/-! ## What takes its place -/

theorem instructions_allocate (h : Host) (origin : Address) (size : Nat) :
    (h.allocate origin size).2.instructions = h.instructions := by
  unfold Host.allocate
  split <;> rfl

/-- A trampoline holds the moved block, and behind it a jump to what follows the block. -/
theorem leadsBack_of_trampoline {place : Address} {code : List UInt8}
    (hcode : trampoline? c target place block = some code)
    (hlimit : target + size block < addressLimit) (m : Memory) :
    ∃ moved, c.relocate? target place block = some moved ∧
      (m.store place code).bytes place moved.length = moved ∧
      (m.store place code).JumpsTo (place + moved.length) (target + size block) := by
  obtain ⟨moved, hmoved, rfl⟩ := Option.map_eq_some_iff.mp hcode
  have hbytes := m.bytes_store place (moved ++ jumpAbsolute (target + size block))
  rw [List.length_append, length_jumpAbsolute, Memory.bytes_add] at hbytes
  obtain ⟨hfront, hjump⟩ := List.append_inj hbytes (Memory.length_bytes ..)
  exact ⟨moved, hmoved, hfront, Memory.jumpsTo_of_bytes hlimit hjump⟩

/-- Preparing the hook steals `block`: whole instructions, as they stand in the function. The
redirect is as long as they are, and so are the bytes that it replaces. The trampoline holds them,
moved, and behind them a jump to the first instruction that was not stolen. -/
structure Steals (c : InstructionSet) (k : InlineHook) (m : Memory) (block : List Instruction)
    (work : Redirect) (m' : Memory) : Prop where
  whole : Whole c k.target (m.bytes k.target 28) block
  address : work.record.address = k.target
  after : work.record.after = jumpAbsolute k.detour ++ nops (size block - 14)
  length_after : work.record.after.length = size block
  length_before : work.record.before.length = size block
  leadsBack : ∃ moved, c.relocate? k.target work.trampoline.address block = some moved ∧
    m'.bytes work.trampoline.address moved.length = moved ∧
    m'.JumpsTo (work.trampoline.address + moved.length) (k.target + size block)

/-- A preparation that succeeds has stolen a block of whole instructions. -/
theorem Preparing.steals {o : Except HookError Unit × InlineHook × Host} (hp : k.Preparing h o)
    (hc : h.instructions.FromFront) (hfresh : k.stage = .fresh) (hok : o.1 = .ok ()) :
    ∃ block work, o.2.1.stage = .ready work ∧
      k.Steals h.instructions h.memory block work o.2.2.memory := by
  cases hp with
  | done hdone => exact absurd hfresh hdone
  | unstolen => cases hok
  | unlent => cases hok
  | unfilled => cases hok
  | @prepared block slot h₁ h₂ work _ _ _ hsteal hlent hfill =>
      refine ⟨block, work, rfl, ?_⟩
      obtain ⟨haccessible, hstolen⟩ := steal_eq_ok hsteal
      have hwhole := whole_of_steal hc hstolen
      have hsame : h₁.instructions = h.instructions := by
        rw [← instructions_allocate h k.target (room block), hlent]
      have hlimit : k.target + size block < addressLimit :=
        Nat.lt_of_le_of_lt (Nat.add_le_add_left hwhole.size_le _) (haccessible.1 (by decide))
      have hlength : (redirect k.detour (size block)).length = size block := by
        rw [length_redirect]
        exact Nat.max_eq_right hwhole.le_size
      cases hfill with
      | @filled code r hcode hroom hcapture =>
          obtain rfl := UndoRecord.capture_eq_ok hcapture
          rw [hsame] at hcode
          exact ⟨hwhole, rfl, rfl, hlength, (Memory.length_bytes ..).trans hlength,
            leadsBack_of_trampoline hcode hlimit h₁.memory⟩

/-- The loop ends after fourteen turns at the latest, and how it ends is answered. What is stolen
are whole instructions from the target on, of 14 to 28 bytes together, of which none but the last
ends the flow, and 28 bytes are enough to tell: with more of them the answer is the same, and what
is reported as no instruction is none whatever follows. A hook is prepared by stealing from the 28
bytes at its target. Its redirect is as long as the stolen code, and its trampoline jumps back to
the first instruction that was not stolen. -/
theorem steals_whole_instructions {c : InstructionSet} (hc : c.FromFront) :
    (∀ (target : Address) (bytes : List UInt8),
      (∀ block, Taken c bytes block → block.length ≤ 14) ∧
        (∀ r, Ends c target bytes r ↔ Prologue.steal c target bytes = r) ∧
        (∀ block, Prologue.steal c target bytes = .ok block → Whole c target bytes block) ∧
        (28 ≤ bytes.length →
          (∀ more, Prologue.steal c target (bytes ++ more) = Prologue.steal c target bytes) ∧
          ∀ a, Prologue.steal c target bytes = .error (.invalidInstruction a) →
            ∃ n, n + 15 ≤ bytes.length ∧ a = target + n ∧
              ∀ more, c.decode? (bytes.drop n ++ more) = none)) ∧
      ∀ (k : InlineHook) (h : Host), h.instructions = c → k.stage = .fresh →
        ((k.prepare h).1 = .ok () → ∃ block work, (k.prepare h).2.1.stage = .ready work ∧
          k.Steals c h.memory block work (k.prepare h).2.2.memory) ∧
        ∀ a, (k.prepare h).1 = .error (.invalidInstruction a) →
          ∃ n, n < 14 ∧ a = k.target + n ∧
            ∀ more, c.decode? (h.memory.bytes a 15 ++ more) = none := by
  refine ⟨fun target bytes ↦ ⟨fun block ↦ Taken.length_le, fun r ↦ ends_iff,
    fun block ↦ whole_of_steal hc, fun hlong ↦ ⟨steal_append hc hlong target, ?_⟩⟩, ?_⟩
  · intro a hs
    obtain ⟨n, hn, rfl, hnone⟩ := not_decoded_of_steal hs
    have hlt : n < 14 := hn
    refine ⟨n, by omega, rfl, fun more ↦ ?_⟩
    rw [decode?_drop_append hc hlong hn, hnone]
  · rintro k h rfl hfresh
    exact ⟨(k.preparing h).steals hc hfresh, fun a ↦ prepare_eq_invalid hc⟩

/-- The last of the stolen instructions has thirteen bytes and starts behind as many that do
nothing. -/
def longLast : Host :=
  .ofMemory ((Memory.empty.map 0x1000000 1 .all).store 0x1000000000 (List.replicate 13 0x90 ++
    [0x66, 0x48, 0x81, 0x84, 0x24, 0x10, 0, 0, 0, 1, 0, 0, 0, 0xC3]))

def invalidLast : List UInt8 := List.replicate 13 0x90 ++ List.replicate 15 0x06

/-- Twenty-six bytes are stolen from the first, and fifteen bytes are enough to refuse the other. -/
theorem steals_whole_instructions_long :
    let o := (InlineHook.mk "f" 0x1000000000 0x2000 0 .fresh).prepare longLast
    (∃ work n, o.2.1.stage = .ready work ∧ work.record.after.length = 26 ∧
      o.2.2.memory.JumpsTo (work.trampoline.address + n) 0x100000001A) ∧
      Prologue.steal .usual 0x1000 invalidLast = .error (.invalidInstruction 0x100D) ∧
      ∀ more, InstructionSet.usual.decode? (List.replicate 15 0x06 ++ more) = none := by
  intro o
  obtain ⟨hloop, hprepare⟩ := steals_whole_instructions InstructionSet.usual_fromFront
  have hok : o.1 = .ok () := by decide +kernel
  have hlength : o.2.1.stage.work?.map (·.record.after.length) = some 26 := by decide +kernel
  obtain ⟨block, work, hstage, hsteals⟩ :=
    (hprepare ⟨"f", 0x1000000000, 0x2000, 0, .fresh⟩ longLast rfl rfl).1 hok
  have hstage' : o.2.1.stage = .ready work := hstage
  rw [hstage'] at hlength
  have hsize : work.record.after.length = 26 := Option.some.inj hlength
  obtain ⟨moved, -, -, hjump⟩ := hsteals.leadsBack
  rw [← hsteals.length_after, hsize] at hjump
  have hinvalid : Prologue.steal .usual 0x1000 invalidLast =
      .error (.invalidInstruction 0x100D) := by decide +kernel
  obtain ⟨n, -, hn, hnone⟩ := ((hloop 0x1000 invalidLast).2.2.2 (by decide)).2 _ hinvalid
  obtain rfl : 13 = n := Nat.add_left_cancel hn
  exact ⟨⟨work, moved.length, hstage, hsize, hjump⟩, hinvalid, hnone⟩

end InlineHook

end HotPatch
