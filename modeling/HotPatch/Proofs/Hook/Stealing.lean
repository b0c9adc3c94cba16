import HotPatch.Hook.Prologue
import HotPatch.Proofs.Code.Decoding

/-!
# Stealing whole instructions

A redirect takes the place of whole instructions. They are taken one a turn from the front of the
function until the redirect fits, which it does after fourteen turns at the latest and within the
bytes that are read.
-/

namespace HotPatch

open Code

namespace Prologue

variable {c : InstructionSet} {target : Address} {bytes : List UInt8}
  {block before after : List Instruction} {i : Instruction} {taken n : Nat}
  {r : Except HookError (List Instruction)}

/-! ## The size of a block -/

theorem size_append (block rest : List Instruction) :
    size (block ++ rest) = size block + size rest := by
  induction block with
  | nil => exact (Nat.zero_add _).symm
  | cons i block ih =>
      change i.length + size (block ++ rest) = i.length + size block + size rest
      rw [ih, Nat.add_assoc]

theorem size_concat (block : List Instruction) (i : Instruction) :
    size (block ++ [i]) = size block + i.length := size_append block [i]

theorem length_le_size (block : List Instruction) : block.length ≤ size block := by
  induction block with
  | nil => exact Nat.le_refl 0
  | cons i block ih =>
      have hpos := i.length_pos
      change block.length + 1 ≤ i.length + size block
      omega

/-- The address at which an instruction of a block starts, as it counts for moving the block. -/
theorem getElem?_starts (target : Address) (before : List Instruction) (i : Instruction)
    (after : List Instruction) :
    (starts target (before ++ i :: after))[before.length]? = some (target + size before) := by
  induction before generalizing target with
  | nil => rfl
  | cons j before ih =>
      change (starts (target + j.length) (before ++ i :: after))[before.length]? =
        some (target + (j.length + size before))
      rw [ih, Nat.add_assoc]

/-! ## The turns of the loop -/

/-- The loop has taken `block` off the bytes, in one turn for each instruction. There is a turn as
long as the redirect does not fit, if an instruction is decoded and does not end the flow before it
fits. -/
inductive Taken (c : InstructionSet) (bytes : List UInt8) : List Instruction → Prop
  | none : Taken c bytes []
  | turn {block : List Instruction} {i : Instruction} (h : Taken c bytes block)
      (hmore : size block < jumpAbsoluteLength)
      (hi : c.decode? (bytes.drop (size block)) = some i)
      (hstays : i.leaves = true → jumpAbsoluteLength ≤ size block + i.length) :
      Taken c bytes (block ++ [i])

/-- How the loop ends: with what it has taken when the redirect fits, at what is no instruction, or
at the end of a function that is too short. -/
inductive Ends (c : InstructionSet) (target : Address) (bytes : List UInt8) :
    Except HookError (List Instruction) → Prop
  | fits {block : List Instruction} (h : Taken c bytes block)
      (hfits : jumpAbsoluteLength ≤ size block) : Ends c target bytes (.ok block)
  | invalid {block : List Instruction} (h : Taken c bytes block)
      (hmore : size block < jumpAbsoluteLength) (hi : c.decode? (bytes.drop (size block)) = none) :
      Ends c target bytes (.error (.invalidInstruction (target + size block)))
  | short {block : List Instruction} {i : Instruction} (h : Taken c bytes block)
      (hi : c.decode? (bytes.drop (size block)) = some i) (hleaves : i.leaves = true)
      (hshort : size block + i.length < jumpAbsoluteLength) :
      Ends c target bytes (.error (.tooShort target (size block + i.length)))

namespace Taken

/-! ### What every turn keeps -/

theorem length_le (h : Taken c bytes block) : block.length ≤ jumpAbsoluteLength := by
  cases h with
  | none => exact Nat.zero_le _
  | @turn block i _ hmore =>
      have hle := length_le_size block
      rw [List.length_append, List.length_singleton]
      omega

theorem size_le (h : Taken c bytes block) : size block ≤ lookahead := by
  cases h with
  | none => exact Nat.zero_le _
  | @turn block i _ hmore =>
      have hi : i.length ≤ maxLength := i.length_le
      rw [size_concat, lookahead]
      omega

/-- Each stolen instruction is the one that is decoded behind those before it. -/
theorem decode?_eq (h : Taken c bytes block) :
    ∀ before i after, block = before ++ i :: after →
      c.decode? (bytes.drop (size before)) = some i := by
  induction h with
  | none =>
      intro before i after heq
      exact absurd heq.symm (List.append_ne_nil_of_right_ne_nil _ (List.cons_ne_nil _ _))
  | @turn block j _ _ hj _ ih =>
      intro before i after heq
      rcases List.eq_nil_or_concat after with rfl | ⟨after, k, rfl⟩
      · obtain ⟨rfl, hij⟩ := List.append_inj' heq rfl
        cases hij
        exact hj
      · have hassoc : before ++ i :: (after ++ [k]) = (before ++ i :: after) ++ [k] := by simp
        rw [List.concat_eq_append, hassoc] at heq
        exact ih before i after (List.append_inj' heq rfl).1

theorem codes_eq (hc : c.FromFront) (h : Taken c bytes block) :
    block.flatMap (·.code) = bytes.take (size block) := by
  induction h with
  | none => rfl
  | @turn block i _ _ hi _ ih =>
      have hcode : i.code = (bytes.drop (size block)).take i.length :=
        List.prefix_iff_eq_take.mp (hc.front hi)
      rw [List.flatMap_append, List.flatMap_singleton, ih, hcode, size_concat, List.take_add]

/-- As long as the redirect does not fit, nothing that was taken ends the flow. -/
theorem stays (h : Taken c bytes block) (hmore : size block < jumpAbsoluteLength) :
    ∀ i ∈ block, i.leaves = false := by
  induction h with
  | none => nofun
  | @turn block j _ hmore' _ hstays ih =>
      rw [size_concat] at hmore
      intro i hi
      rcases List.mem_append.mp hi with hi | hi
      · exact ih hmore' i hi
      · obtain rfl := List.mem_singleton.mp hi
        refine Bool.eq_false_iff.mpr fun hleaves ↦ ?_
        exact Nat.not_le.mpr hmore (hstays hleaves)

theorem stays_dropLast (h : Taken c bytes block) : ∀ i ∈ block.dropLast, i.leaves = false := by
  cases h with
  | none => nofun
  | turn h hmore =>
      rw [List.dropLast_concat]
      exact h.stays hmore

/-- The loop comes to an end: with each turn fewer bytes are missing. -/
theorem exists_ends {block : List Instruction} (target : Address) (h : Taken c bytes block) :
    ∃ r, Ends c target bytes r := by
  by_cases hfits : jumpAbsoluteLength ≤ size block
  · exact ⟨_, .fits h hfits⟩
  · have hmore : size block < jumpAbsoluteLength := Nat.not_le.mp hfits
    cases hi : c.decode? (bytes.drop (size block)) with
    | none => exact ⟨_, .invalid h hmore hi⟩
    | some i =>
        by_cases hshort : i.leaves = true ∧ size block + i.length < jumpAbsoluteLength
        · exact ⟨_, .short h hi hshort.1 hshort.2⟩
        · exact (h.turn hmore hi fun hleaves ↦
            Nat.not_lt.mp fun hlt ↦ hshort ⟨hleaves, hlt⟩).exists_ends target
termination_by jumpAbsoluteLength - size block
decreasing_by
  have hpos := i.length_pos
  rw [size_concat]
  omega

end Taken

/-! ## What the loop answers -/

theorem stealFrom_of_fits (h : jumpAbsoluteLength ≤ taken) :
    stealFrom c target taken bytes = .ok [] := by
  rw [stealFrom, if_pos h]

theorem stealFrom_of_invalid (hmore : taken < jumpAbsoluteLength) (hi : c.decode? bytes = none) :
    stealFrom c target taken bytes = .error (.invalidInstruction (target + taken)) := by
  rw [stealFrom, if_neg (Nat.not_le.mpr hmore), hi]

theorem stealFrom_of_short (hi : c.decode? bytes = some i) (hleaves : i.leaves = true)
    (hshort : taken + i.length < jumpAbsoluteLength) :
    stealFrom c target taken bytes = .error (.tooShort target (taken + i.length)) := by
  have hmore : ¬ jumpAbsoluteLength ≤ taken := by omega
  rw [stealFrom, if_neg hmore, hi]
  exact if_pos ⟨hleaves, hshort⟩

theorem stealFrom_of_turn (hmore : taken < jumpAbsoluteLength) (hi : c.decode? bytes = some i)
    (hstays : i.leaves = true → jumpAbsoluteLength ≤ taken + i.length) :
    stealFrom c target taken bytes =
      (stealFrom c target (taken + i.length) (bytes.drop i.length)).map (i :: ·) := by
  have hnot : ¬ (i.leaves = true ∧ taken + i.length < jumpAbsoluteLength) :=
    fun h ↦ Nat.not_le.mpr h.2 (hstays h.1)
  rw [stealFrom, if_neg (Nat.not_le.mpr hmore), hi]
  dsimp only
  rw [if_neg hnot]
  cases stealFrom c target (taken + i.length) (bytes.drop i.length) <;> rfl

/-- What was taken comes in front of what the loop takes from there on. -/
theorem Taken.steal_eq (target : Address) (h : Taken c bytes block) :
    steal c target bytes =
      (stealFrom c target (size block) (bytes.drop (size block))).map (block ++ ·) := by
  induction h with
  | none =>
      rw [steal]
      change _ = (stealFrom c target 0 bytes).map ([] ++ ·)
      cases stealFrom c target 0 bytes <;> rfl
  | @turn block i _ hmore hi hstays ih =>
      rw [ih, stealFrom_of_turn hmore hi hstays, List.drop_drop, size_concat]
      cases stealFrom c target (size block + i.length) (bytes.drop (size block + i.length)) with
      | error e => rfl
      | ok rest => exact congrArg Except.ok (List.append_cons ..)

theorem Ends.steal_eq (h : Ends c target bytes r) : steal c target bytes = r := by
  cases h with
  | fits h hfits =>
      rw [h.steal_eq target, stealFrom_of_fits hfits]
      exact congrArg Except.ok (List.append_nil _)
  | invalid h hmore hi =>
      rw [h.steal_eq target, stealFrom_of_invalid hmore hi]
      rfl
  | short h hi hleaves hshort =>
      rw [h.steal_eq target, stealFrom_of_short hi hleaves hshort]
      rfl

/-- The loop ends in one way, which is answered. -/
theorem ends_iff : Ends c target bytes r ↔ steal c target bytes = r := by
  constructor
  · exact Ends.steal_eq
  · rintro rfl
    obtain ⟨r, hr⟩ := (Taken.none : Taken c bytes []).exists_ends target
    rwa [hr.steal_eq]

/-! ## The bytes that are read -/

/-- The bytes that are read go on far enough behind every place at which an instruction is
decoded. -/
theorem decode?_drop_append (hc : c.FromFront) (hlong : lookahead ≤ bytes.length)
    (hn : n < jumpAbsoluteLength) (more : List UInt8) :
    c.decode? (bytes.drop n ++ more) = c.decode? (bytes.drop n) := by
  refine hc.enough _ more ?_
  have hlookahead : lookahead = jumpAbsoluteLength + maxLength - 1 := rfl
  rw [List.length_drop]
  omega

theorem decode?_append_drop (hc : c.FromFront) (hlong : lookahead ≤ bytes.length)
    (hn : n < jumpAbsoluteLength) (more : List UInt8) :
    c.decode? ((bytes ++ more).drop n) = c.decode? (bytes.drop n) := by
  have hle : n ≤ bytes.length := Nat.le_trans (Nat.le_of_lt hn) (Nat.le_trans (by decide) hlong)
  rw [List.drop_append_of_le_length hle, decode?_drop_append hc hlong hn]

theorem Taken.append (hc : c.FromFront) (hlong : lookahead ≤ bytes.length) (more : List UInt8)
    (h : Taken c bytes block) : Taken c (bytes ++ more) block := by
  induction h with
  | none => exact .none
  | turn _ hmore hi hstays ih =>
      exact ih.turn hmore ((decode?_append_drop hc hlong hmore more).trans hi) hstays

/-- Whatever stands behind the bytes that were read, the loop ends the same. -/
theorem Ends.append (hc : c.FromFront) (hlong : lookahead ≤ bytes.length) (more : List UInt8)
    (h : Ends c target bytes r) : Ends c target (bytes ++ more) r := by
  cases h with
  | fits h hfits => exact .fits (h.append hc hlong more) hfits
  | invalid h hmore hi =>
      exact .invalid (h.append hc hlong more) hmore
        ((decode?_append_drop hc hlong hmore more).trans hi)
  | short h hi hleaves hshort =>
      have hmore := Nat.lt_of_le_of_lt (Nat.le_add_right _ _) hshort
      exact .short (h.append hc hlong more)
        ((decode?_append_drop hc hlong hmore more).trans hi) hleaves hshort

/-- More bytes than are read would not change what is answered. -/
theorem steal_append (hc : c.FromFront) (hlong : lookahead ≤ bytes.length) (target : Address)
    (more : List UInt8) : steal c target (bytes ++ more) = steal c target bytes :=
  ends_iff.mp ((ends_iff.mpr rfl).append hc hlong more)

theorem length_le_of_steal (hs : steal c target bytes = .ok block) :
    block.length ≤ jumpAbsoluteLength := by
  cases ends_iff.mpr hs with
  | fits h => exact h.length_le

theorem room_le (hs : steal c target bytes = .ok block) : room block ≤ pageSize := by
  have hlength := length_le_of_steal hs
  simp only [room, jumpAbsoluteLength, maxLength, pageSize] at *
  omega

theorem not_decoded_of_steal {a : Address}
    (hs : steal c target bytes = .error (.invalidInstruction a)) :
    ∃ n, n < jumpAbsoluteLength ∧ a = target + n ∧ c.decode? (bytes.drop n) = none := by
  cases ends_iff.mpr hs with
  | invalid _ hmore hi => exact ⟨_, hmore, rfl, hi⟩

/-! ## What is taken -/

/-- The block is made of whole instructions that follow one another from the target on, as the bytes
are decoded. There are enough of them for a redirect, and none but the last ends the flow. -/
structure Whole (c : InstructionSet) (target : Address) (bytes : List UInt8)
    (block : List Instruction) : Prop where
  decoded : ∀ before i after, block = before ++ i :: after →
    c.decode? (bytes.drop (size before)) = some i ∧
      (starts target block)[before.length]? = some (target + size before)
  codes : block.flatMap (·.code) = bytes.take (size block)
  le_size : 14 ≤ size block
  size_le : size block ≤ 28
  stays : ∀ i ∈ block.dropLast, i.leaves = false

theorem whole_of_steal (hc : c.FromFront) (hs : steal c target bytes = .ok block) :
    Whole c target bytes block := by
  cases ends_iff.mpr hs with
  | fits h hfits =>
      refine ⟨fun before i after heq ↦ ⟨h.decode?_eq before i after heq, ?_⟩, h.codes_eq hc, hfits,
        h.size_le, h.stays_dropLast⟩
      rw [heq, getElem?_starts]

theorem length_redirect (detour : Address) (stolen : Nat) :
    (redirect detour stolen).length = max jumpAbsoluteLength stolen := by
  rw [redirect, List.length_append, length_jumpAbsolute, length_nops]
  omega

end Prologue

end HotPatch
