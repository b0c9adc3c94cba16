import HotPatch.Code.Relocation

/-!
# Decoding from the front

An instruction is made of the bytes at the front of those that are decoded, and what follows the
room for the longest instruction does not matter.
-/

namespace HotPatch.Code

/-- What is relied on when code is decoded. -/
structure InstructionSet.FromFront (c : InstructionSet) : Prop where
  front : ∀ {bytes : List UInt8} {i : Instruction}, c.decode? bytes = some i → i.code <+: bytes
  enough : ∀ bytes more : List UInt8, maxLength ≤ bytes.length →
    c.decode? (bytes ++ more) = c.decode? bytes

namespace Instruction

variable {bytes : List UInt8} {place size : Nat}

/-! ## What an instruction is made of -/

def AtFront (bytes : List UInt8) (o : Option Instruction) : Prop :=
  ∀ i, o = some i → i.code <+: bytes

theorem atFront_none (bytes : List UInt8) : AtFront bytes none := nofun

theorem AtFront.ite {p : Prop} [Decidable p] {o o' : Option Instruction} (h : AtFront bytes o)
    (h' : AtFront bytes o') : AtFront bytes (if p then o else o') := by
  split
  · exact h
  · exact h'

theorem atFront_ofFront? (bytes : List UInt8) (size : Nat) (role : Role) (leaves : Bool) :
    AtFront bytes (ofFront? bytes size role leaves) := by
  intro i h
  unfold ofFront? at h
  split at h
  · cases h
    exact List.take_prefix ..
  · cases h

theorem atFront_branch? (bytes : List UInt8) (place size : Nat) (role : Int → Role)
    (leaves : Bool) : AtFront bytes (branch? bytes place size role leaves) :=
  atFront_ofFront? _ _ _ _

theorem atFront_withOperands? (bytes : List UInt8) (place constant : Nat)
    (leaves allowed : Operands → Bool) :
    AtFront bytes (withOperands? bytes place constant leaves allowed) := by
  unfold withOperands?
  split
  · exact atFront_none bytes
  · have hone := atFront_ofFront? bytes
    exact .ite (.ite (hone _ _ _) (hone _ _ _)) (atFront_none bytes)

theorem atFront_decodeAt? (bytes : List UInt8) (place : Nat) (narrow wide : Bool) :
    AtFront bytes (decodeAt? bytes place narrow wide) := by
  have hnone := atFront_none bytes
  have hone := atFront_ofFront? bytes
  have hbranch := atFront_branch? bytes
  have hoperands := atFront_withOperands? bytes
  simp only [decodeAt?]
  split
  · exact hnone
  · repeat' apply AtFront.ite
    all_goals simp only [hnone, hone, hbranch, hoperands]
  · repeat' apply AtFront.ite
    all_goals simp only [hnone, hone, hbranch, hoperands]

theorem atFront_decode? (bytes : List UInt8) : AtFront bytes (decode? bytes) := by
  unfold decode?
  dsimp only
  split
  · exact atFront_decodeAt? _ _ _ _
  · exact atFront_decodeAt? _ _ _ _

/-! ## What does not matter -/

/-- Whatever stands behind enough bytes for the longest instruction changes nothing. -/
theorem ofFront?_append (hlong : maxLength ≤ bytes.length) (more : List UInt8) (size : Nat)
    (role : Role) (leaves : Bool) :
    ofFront? (bytes ++ more) size role leaves = ofFront? bytes size role leaves := by
  by_cases hsize : size ≤ maxLength
  · have hle : size ≤ bytes.length := Nat.le_trans hsize hlong
    have hle' : size ≤ (bytes ++ more).length := by
      rw [List.length_append]
      omega
    simp only [ofFront?, List.take_append_of_le_length hle, hle, hle']
  · simp [ofFront?, hsize]

theorem displacementAt_append (h : place + size ≤ bytes.length) (more : List UInt8) :
    displacementAt (bytes ++ more) place size = displacementAt bytes place size := by
  have hdrop : (bytes ++ more).drop place = bytes.drop place ++ more :=
    List.drop_append_of_le_length (by omega)
  have htake : (bytes.drop place ++ more).take size = (bytes.drop place).take size :=
    List.take_append_of_le_length (by rw [List.length_drop]; omega)
  rw [displacementAt, displacementAt, hdrop, htake]

theorem branch?_append (hlong : maxLength ≤ bytes.length) (more : List UInt8) (place size : Nat)
    (hend : place + size ≤ maxLength) (role : Int → Role) (leaves : Bool) :
    branch? (bytes ++ more) place size role leaves = branch? bytes place size role leaves := by
  rw [branch?, branch?, displacementAt_append (Nat.le_trans hend hlong), ofFront?_append hlong]

/-- The two bytes at a place, whatever follows. -/
theorem drop_append_front (h : place + 2 ≤ bytes.length) : ∃ b d rest,
    bytes.drop place = b :: d :: rest ∧
      ∀ more, (bytes ++ more).drop place = b :: d :: (rest ++ more) := by
  have hlength : 2 ≤ (bytes.drop place).length := by
    rw [List.length_drop]
    omega
  obtain ⟨b, d, rest, hrest⟩ : ∃ b d rest, bytes.drop place = b :: d :: rest := by
    match bytes.drop place, hlength with
    | b :: d :: rest, _ => exact ⟨b, d, rest, rfl⟩
  refine ⟨b, d, rest, hrest, fun more ↦ ?_⟩
  rw [List.drop_append_of_le_length (by omega), hrest]
  rfl

theorem withOperands?_append (hlong : maxLength ≤ bytes.length) (more : List UInt8) (place : Nat)
    (hplace : place + 5 ≤ maxLength) (constant : Nat) (leaves allowed : Operands → Bool) :
    withOperands? (bytes ++ more) place constant leaves allowed =
      withOperands? bytes place constant leaves allowed := by
  have hfront : place + 2 ≤ bytes.length := by omega
  obtain ⟨b, d, rest, hrest, hmore⟩ := drop_append_front hfront
  have hdisplacement : displacementAt (bytes ++ more) (place + 1) 4 =
      displacementAt bytes (place + 1) 4 := displacementAt_append (by omega) more
  simp only [withOperands?, hrest, hmore, hdisplacement, ofFront?_append hlong, List.headD_cons]

/-- Two bytes are enough to tell an opcode of two bytes from one of one byte. -/
theorem match_first_two {α : Type} (none : α) (two one : Nat → α) (b d : Nat)
    (rest more : List Nat) :
    (match b :: d :: rest with
      | [] => none
      | 0x0F :: c :: _ => two c
      | b :: _ => one b) =
    match b :: d :: more with
      | [] => none
      | 0x0F :: c :: _ => two c
      | b :: _ => one b := by
  by_cases hb : b = 0x0F
  · subst hb
    rfl
  · simp [hb]

theorem decodeAt?_append (hlong : maxLength ≤ bytes.length) (more : List UInt8)
    (hplace : place ≤ 2) (narrow wide : Bool) :
    decodeAt? (bytes ++ more) place narrow wide = decodeAt? bytes place narrow wide := by
  have hmax : maxLength = 15 := rfl
  have hfront : place + 2 ≤ bytes.length := by omega
  obtain ⟨b, d, rest, hrest, hmore⟩ := drop_append_front hfront
  have hfirst := withOperands?_append hlong more (place + 1) (by omega)
  have hsecond := withOperands?_append hlong more (place + 2) (by omega)
  have hnear := branch?_append hlong more 1 4 (by omega)
  have hshort := branch?_append hlong more 1 1 (by omega)
  have hcondition := branch?_append hlong more (place + 2) 4 (by omega)
  simp only [decodeAt?, hrest, hmore, List.map_cons, ofFront?_append hlong, hfirst, hsecond, hnear,
    hshort, hcondition]
  exact match_first_two ..

/-- What is decoded depends on no more bytes than the longest instruction has. -/
theorem decode?_append (hlong : maxLength ≤ bytes.length) (more : List UInt8) :
    decode? (bytes ++ more) = decode? bytes := by
  have hmax : maxLength = 15 := rfl
  have hget (n : Nat) (hn : n < 15) : (bytes ++ more)[n]? = bytes[n]? :=
    List.getElem?_append_left (by omega)
  have hhead : (bytes ++ more).head? = bytes.head? := by
    rw [List.head?_eq_getElem?, List.head?_eq_getElem?, hget 0 (by omega)]
  unfold decode?
  rw [hhead]
  generalize bytes.head?.filter (fun b ↦ b == 0x66 || b == 0xF2 || b == 0xF3) = first
  dsimp only
  have hle : (if first.isSome then 1 else 0) ≤ 1 := by split <;> omega
  generalize (if first.isSome then 1 else 0) = place at hle ⊢
  rw [hget place (by omega)]
  split
  · exact decodeAt?_append hlong more (by omega) _ _
  · exact decodeAt?_append hlong more (by omega) _ _

end Instruction

theorem InstructionSet.usual_fromFront : InstructionSet.usual.FromFront where
  front := Instruction.atFront_decode? _ _
  enough _ more hlong := Instruction.decode?_append hlong more

end HotPatch.Code
