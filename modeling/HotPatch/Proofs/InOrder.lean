import HotPatch.Proofs.Disjoint

/-!
# Records restored in order

Records that were applied one after the other are restored the latest first. Restored in the order
in which they were applied, each finds its bytes only if, at every address, the bytes that they put
there alternate between the last of them and what was there before.
-/

namespace HotPatch

/-- The bytes are `b`, `c`, `b` and so on. -/
def Alternate (b c : UInt8) : List UInt8 → Prop
  | [] => True
  | d :: ds => d = b ∧ Alternate c b ds

instance : (b c : UInt8) → (ds : List UInt8) → Decidable (Alternate b c ds)
  | _, _, [] => inferInstanceAs (Decidable True)
  | b, c, d :: ds =>
    have := instDecidableAlternate c b ds
    inferInstanceAs (Decidable (d = b ∧ Alternate c b ds))

variable {r : UndoRecord} {rs : List UndoRecord} {m m' n n' : Memory} {x : Nat}

namespace UndoRecord

def byteAt? (r : UndoRecord) (x : Address) : Option UInt8 :=
  if r.address ≤ x then r.after[x - r.address]? else none

theorem byte_onto (r : UndoRecord) (m : Memory) (x : Nat) :
    (r.onto m).byte x = (r.byteAt? x).getD (m.byte x) := by
  rw [onto, Memory.byte_store, byteAt?]
  split <;> rfl

theorem isSome_byteAt?_inverse (r : UndoRecord) (x : Nat) :
    (r.inverse.byteAt? x).isSome = (r.byteAt? x).isSome := by
  rw [Bool.eq_iff_iff, byteAt?, byteAt?]
  by_cases hle : r.address ≤ x
  · simp [inverse, hle, r.length_eq]
  · simp [inverse, hle]

/-- An applied record can be restored in a memory with the same pages that holds its bytes. -/
theorem Fits.inverse_iff (hfit : r.Fits m) (hpage : n.page = m.page) :
    r.inverse.Fits n ↔ ∀ x b, r.byteAt? x = some b → n.byte x = b := by
  constructor
  · intro hback x b hb
    have hbytes : n.bytes r.address r.after.length = r.after := hback.bytes_eq
    unfold byteAt? at hb
    split at hb
    · rename_i hle
      have hlt := (List.getElem?_eq_some_iff.mp hb).1
      rw [← hbytes, Memory.getElem?_bytes, if_pos hlt, Nat.add_sub_cancel' hle] at hb
      exact Option.some.inj hb
    · cases hb
  · intro hbytes
    refine ⟨hfit.inverse.admits.of_page_eq fun _ _ _ ↦ by rw [hpage]; rfl, ?_⟩
    change n.bytes r.address r.after.length = r.after
    apply List.ext_getElem?
    intro i
    rw [Memory.getElem?_bytes]
    split
    · rename_i hi
      have hat : r.byteAt? (r.address + i) = some r.after[i] := by
        rw [byteAt?, if_pos (Nat.le_add_right _ _), Nat.add_sub_cancel_left,
          List.getElem?_eq_getElem hi]
      rw [hbytes _ _ hat, List.getElem?_eq_getElem hi]
    · rename_i hi
      rw [List.getElem?_eq_none (Nat.le_of_not_lt hi)]

theorem Fits.byte_inverse_onto (hfit : r.Fits m) (n : Memory) (x : Nat) :
    (r.inverse.onto n).byte x = if (r.byteAt? x).isSome then m.byte x else n.byte x := by
  have hback : (r.inverse.onto (r.onto m)).byte x = m.byte x := by rw [hfit.inverse_onto]
  rw [byte_onto] at hback
  rw [byte_onto, ← isSome_byteAt?_inverse]
  cases hb : r.inverse.byteAt? x with
  | none => rfl
  | some b =>
      rw [hb] at hback
      exact hback

end UndoRecord

def bytesAt (rs : List UndoRecord) (x : Address) : List UInt8 := rs.filterMap (·.byteAt? x)

namespace Rewrites

/-- A byte comes from the last write to its address, or it was there before. -/
theorem byte_eq (hw : Rewrites m rs m') (x : Nat) :
    m'.byte x = (bytesAt rs x).getLastD (m.byte x) := by
  induction hw with
  | nil => rfl
  | @cons m m' r rs hfit _ ih =>
      rw [ih, UndoRecord.byte_onto, bytesAt, bytesAt, List.filterMap_cons]
      cases r.byteAt? x with
      | none => rfl
      | some b => rw [List.getLastD_cons, Option.getD_some]

/-- Whether records can be restored in order is a matter of each address by itself. -/
theorem inOrder_iff (hw : Rewrites m rs m') (hpage : n.page = m.page) :
    (∃ n', Rewrites n (rs.map UndoRecord.inverse) n') ↔
      ∀ x, Alternate (n.byte x) (m.byte x) (bytesAt rs x) := by
  induction hw generalizing n with
  | nil m => exact iff_of_true ⟨n, .nil n⟩ fun _ ↦ trivial
  | @cons m m' r rs hfit _ ih =>
      rw [List.map_cons, exists_cons_iff, hfit.inverse_iff hpage, ih (n := r.inverse.onto n) hpage,
        ← forall_and]
      refine forall_congr' fun x ↦ ?_
      rw [hfit.byte_inverse_onto, UndoRecord.byte_onto, bytesAt, bytesAt, List.filterMap_cons]
      cases hb : r.byteAt? x with
      | none => simp
      | some b =>
          simp only [Option.isSome_some, if_true, Option.getD_some, Option.some.injEq, Alternate]
          constructor
          · rintro ⟨hfirst, hrest⟩
            have hsame := hfirst b rfl
            exact ⟨hsame.symm, hsame ▸ hrest⟩
          · rintro ⟨rfl, hrest⟩
            exact ⟨fun c hc ↦ hc, hrest⟩

/-- Where memory holds the last of the bytes, restoring in order leads back. -/
theorem inOrder_byte (hw : Rewrites m rs m')
    (hback : Rewrites n (rs.map UndoRecord.inverse) n') (hpage : n.page = m.page) (x : Nat) :
    (n.byte x = m'.byte x → n'.byte x = m.byte x) ∧
      (m.byte x = m'.byte x → n'.byte x = n.byte x) := by
  induction hw generalizing n with
  | nil m =>
      cases hback
      exact ⟨id, fun _ ↦ rfl⟩
  | @cons m m' r rs hfit _ ih =>
      cases hback with
      | cons hfit' hback =>
          have hbytes := (hfit.inverse_iff hpage).mp hfit' x
          have hrest := ih hback hpage
          rw [hfit.byte_inverse_onto, UndoRecord.byte_onto] at hrest
          cases hb : r.byteAt? x with
          | none => simpa [hb] using hrest
          | some b =>
              -- the two bytes change places
              have hsame := hbytes b hb
              simp only [hb, Option.isSome_some, if_true, Option.getD_some, ← hsame] at hrest
              exact hrest.symm

theorem inOrder_eq (hw : Rewrites m rs m')
    (hback : Rewrites m' (rs.map UndoRecord.inverse) n) : n = m := by
  refine Memory.ext_page_byte (hback.page_eq.trans hw.page_eq) (funext fun x ↦ ?_) ?_ ?_
  · exact (hw.inOrder_byte hback hw.page_eq x).1 rfl
  · exact hback.bounds_eq.1.trans hw.bounds_eq.1
  · exact hback.bounds_eq.2.trans hw.bounds_eq.2

/-- Applied records can be restored in order exactly if their bytes alternate, everywhere, between
the last of them and what was there before. -/
theorem exists_inOrder_iff (hw : Rewrites m rs m') :
    (∃ n, Rewrites m' (rs.map UndoRecord.inverse) n) ↔
      ∀ x, Alternate ((bytesAt rs x).getLastD (m.byte x)) (m.byte x) (bytesAt rs x) := by
  rw [hw.inOrder_iff hw.page_eq]
  exact forall_congr' fun x ↦ by rw [hw.byte_eq]

end Rewrites

end HotPatch
