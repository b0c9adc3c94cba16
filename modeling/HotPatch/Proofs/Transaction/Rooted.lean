import HotPatch.Proofs.Transaction.Basic

/-!
# Where undoing leads

Records that were made one after the other, some of them perhaps undone in between, may or may not
fit memory any more. If all of them can be undone, that leads to memory as it was before the first.
-/

namespace HotPatch

def Memory.withBytes (m : Memory) (byte : Address → UInt8) : Memory := { m with byte }

structure Agrees (m₀ : Memory) (rs : List UndoRecord) (m : Memory) : Prop where
  frame : m = m₀.withBytes m.byte
  outside : ∀ x, (∀ r ∈ rs, ¬ r.Covers x) → m.byte x = m₀.byte x

/-- The memory came from `m₀` by making the records, and perhaps undoing some. -/
structure Rooted (m₀ : Memory) (rs : List UndoRecord) (m : Memory) : Prop where
  agrees : Agrees m₀ rs m
  back : ∀ n n', Agrees m₀ rs n → Unwinds n rs n' → n' = m₀
  admits : ∀ r ∈ rs, m₀.Admits r.address r.after.length

variable {m₀ m m' : Memory} {r : UndoRecord} {rs : List UndoRecord}

theorem Memory.eq_of_withBytes (hframe : m = m₀.withBytes m.byte)
    (hbyte : ∀ x, m.byte x = m₀.byte x) : m = m₀ := by
  rw [hframe, show m.byte = m₀.byte from funext hbyte]
  rfl

namespace Agrees

theorem refl (m : Memory) (rs : List UndoRecord) : Agrees m rs m := ⟨rfl, fun _ _ ↦ rfl⟩

theorem nil (ha : Agrees m₀ [] m) : m = m₀ :=
  Memory.eq_of_withBytes ha.frame fun x ↦ ha.outside x fun _ hr ↦ nomatch hr

theorem append (ha : Agrees m₀ rs m) (rs' : List UndoRecord) : Agrees m₀ (rs ++ rs') m where
  frame := ha.frame
  outside x hx := ha.outside x fun r hr ↦ hx r (List.mem_append_left rs' hr)

theorem onto {q : UndoRecord} (ha : Agrees m₀ rs m)
    (hq : ∀ x, q.Covers x → ∃ r ∈ rs, r.Covers x) : Agrees m₀ rs (q.onto m) where
  frame := by
    have hframe : q.onto m = m.withBytes (q.onto m).byte := rfl
    rw [ha.frame] at hframe ⊢
    exact hframe
  outside x hx := by
    have hnot : ¬ q.Covers x := fun hcovers ↦ by
      obtain ⟨r, hr, hcovers'⟩ := hq x hcovers
      exact hx r hr hcovers'
    rw [UndoRecord.byte_onto_of_not_covers _ hnot, ha.outside x hx]

end Agrees

namespace Rooted

theorem nil (m : Memory) : Rooted m [] m where
  agrees := .refl m []
  back n n' ha hu := by
    cases hu
    exact ha.nil
  admits _ hr := nomatch hr

theorem page_eq (hr : Rooted m₀ rs m) : m.page = m₀.page := by
  rw [hr.agrees.frame]
  rfl

/-- A write is made on top of the others. -/
theorem write (hroot : Rooted m₀ rs m) (hfit : r.Fits m) : Rooted m₀ (rs ++ [r]) (r.onto m) where
  agrees := (hroot.agrees.append [r]).onto fun x hx ↦
    ⟨r, List.mem_append_right rs (List.mem_singleton_self r), hx⟩
  back n n' ha hu := by
    obtain ⟨n₁, hlast, hrest⟩ := Unwinds.append_iff.mp hu
    refine hroot.back n₁ n' ?_ hrest
    cases hlast with
    | cons hback hnil =>
        cases hnil
        -- where only the last record reaches, it replaced what was there at the start
        refine ⟨?_, fun x hx ↦ ?_⟩
        · have hframe : r.inverse.onto n = n.withBytes (r.inverse.onto n).byte := rfl
          rw [ha.frame] at hframe ⊢
          exact hframe
        · have hm := hroot.agrees.outside x hx
          by_cases hcovers : r.inverse.Covers x
          · have hback : (r.inverse.onto (r.onto m)).byte x = m.byte x := by rw [hfit.inverse_onto]
            rw [UndoRecord.byte_onto_of_covers _ hcovers] at hback
            rw [UndoRecord.byte_onto_of_covers _ hcovers, hback, hm]
          · rw [UndoRecord.byte_onto_of_not_covers _ hcovers]
            refine ha.outside x fun q hq ↦ ?_
            rcases List.mem_append.mp hq with hq | hq
            · exact hx q hq
            · rw [List.mem_singleton.mp hq]
              rwa [UndoRecord.covers_inverse] at hcovers
  admits q hq := by
    rcases List.mem_append.mp hq with hq | hq
    · exact hroot.admits q hq
    · rw [List.mem_singleton.mp hq]
      exact (r.length_eq ▸ hfit.admits).of_page_eq fun x _ _ ↦ by rw [hroot.page_eq]

theorem writes {rs' : List UndoRecord} (hroot : Rooted m₀ rs m) (hw : Rewrites m rs' m') :
    Rooted m₀ (rs ++ rs') m' := by
  induction hw generalizing rs with
  | nil => rwa [List.append_nil]
  | @cons m m' r rs' hfit _ ih =>
      rw [← List.singleton_append, ← List.append_assoc]
      exact ih (hroot.write hfit)

/-- Another memory than at the start differs in a byte that can be read. -/
theorem exists_byte (hroot : Rooted m₀ rs m) (hne : m ≠ m₀) :
    ∃ x, m₀.Readable x ∧ m.byte x ≠ m₀.byte x := by
  obtain ⟨x, hx⟩ : ∃ x, m.byte x ≠ m₀.byte x :=
    Classical.not_forall.mp fun hsame ↦ hne (Memory.eq_of_withBytes hroot.agrees.frame hsame)
  have hcovered : ∃ r ∈ rs, r.Covers x := by
    refine Classical.byContradiction fun hnone ↦ hx (hroot.agrees.outside x fun r hr hcovers ↦ ?_)
    exact hnone ⟨r, hr, hcovers⟩
  obtain ⟨r, hr, hcovers⟩ := hcovered
  exact ⟨x, (hroot.admits r hr).readable x hcovers.1 hcovers.2, hx⟩

/-- If all records can be undone, that leads back to the start. -/
theorem eq_of_unwinds (hroot : Rooted m₀ rs m) (hu : Unwinds m rs m') : m' = m₀ :=
  hroot.back m m' hroot.agrees hu

/-- The records stay rooted when memory is back at the start. -/
theorem rewind (hroot : Rooted m₀ rs m) : Rooted m₀ rs m₀ :=
  { hroot with agrees := .refl m₀ rs }

end Rooted

end HotPatch
