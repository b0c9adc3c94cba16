import HotPatch.Proofs.Disjoint
import HotPatch.Proofs.Transaction.Basic

/-!
# What is spared

Some addresses may be left alone by everything else that is done to memory. Records that lie among
them are then applied and restored as if nothing else had been done, and a transaction whose records
avoid them can be rolled back and made again without touching them.
-/

namespace HotPatch

variable {on : Address → Prop} {m m₁ m₂ m₃ m' : Memory} {r : UndoRecord} {rs : List UndoRecord}

structure Memory.Spared (on : Address → Prop) (m m' : Memory) : Prop where
  page : ∀ x, on x → m'.page (x / pageSize) = m.page (x / pageSize)
  byte : ∀ x, on x → m'.byte x = m.byte x

namespace Memory.Spared

theorem refl (m : Memory) : Spared on m m := ⟨fun _ _ ↦ rfl, fun _ _ ↦ rfl⟩

theorem trans (h₁ : Spared on m₁ m₂) (h₂ : Spared on m₂ m₃) : Spared on m₁ m₃ :=
  ⟨fun x hx ↦ (h₂.page x hx).trans (h₁.page x hx), fun x hx ↦ (h₂.byte x hx).trans (h₁.byte x hx)⟩

theorem symm (hs : Spared on m m') : Spared on m' m :=
  ⟨fun x hx ↦ (hs.page x hx).symm, fun x hx ↦ (hs.byte x hx).symm⟩

end Memory.Spared

/-! ## Records among what is spared -/

namespace UndoRecord

def Within (r : UndoRecord) (on : Address → Prop) : Prop := ∀ x, r.Covers x → on x

theorem Fits.of_spared (hfit : r.Fits m) (hr : r.Within on) (hs : m.Spared on m') : r.Fits m' :=
  hfit.of_byte_eq (fun x hx ↦ hs.page x (hr x hx)) fun x hx ↦ hs.byte x (hr x hx)

theorem spared_onto_onto (hs : m.Spared on m') (r : UndoRecord) :
    (r.onto m).Spared on (r.onto m') where
  page := hs.page
  byte x hx := by
    by_cases hmem : r.Covers x
    · rw [byte_onto_of_covers _ hmem, byte_onto_of_covers _ hmem]
    · rw [byte_onto_of_not_covers _ hmem, byte_onto_of_not_covers _ hmem, hs.byte x hx]

end UndoRecord

/-- Records can be applied as well where everything else has changed. -/
theorem Rewrites.of_spared (hw : Rewrites m rs m₁) (hrs : ∀ r ∈ rs, r.Within on)
    (hs : m.Spared on m') : ∃ m₁', Rewrites m' rs m₁' ∧ m₁.Spared on m₁' := by
  induction hw generalizing m' with
  | nil m => exact ⟨m', .nil m', hs⟩
  | @cons m m₁ r rs hfit _ ih =>
      obtain ⟨hr, hrest⟩ := List.forall_mem_cons.mp hrs
      obtain ⟨m₁', hw', hs'⟩ := ih hrest (UndoRecord.spared_onto_onto hs r)
      exact ⟨m₁', .cons (hfit.of_spared hr hs) hw', hs'⟩

/-- Where everything else has changed after records were applied, it is as if that had been so
before. -/
theorem Rewrites.beneath_spared (hw : Rewrites m₁ rs m₂) (hrs : ∀ r ∈ rs, r.Within on)
    (hs : m₂.Spared on m₃) : ∃ m, Rewrites m rs m₃ ∧ m₁.Spared on m := by
  have hback : ∀ r ∈ rs.reverse.map UndoRecord.inverse, r.Within on := by
    intro q hq
    obtain ⟨r, hr, rfl⟩ := List.mem_map.mp hq
    exact fun x hx ↦ hrs r (List.mem_reverse.mp hr) x ((UndoRecord.covers_inverse r x).mp hx)
  obtain ⟨m, hu, hs'⟩ := Rewrites.of_spared hw.unwinds hback hs
  exact ⟨m, Unwinds.rewrites hu, hs'⟩

/-! ## Records that avoid it -/

namespace UndoRecord

theorem Avoids.spared_onto (hr : r.Avoids on) (m : Memory) : m.Spared on (r.onto m) :=
  ⟨fun _ _ ↦ rfl, fun x hx ↦ byte_onto_of_not_covers m fun hmem ↦ hr x hmem hx⟩

theorem Avoids.inverse (hr : r.Avoids on) : r.inverse.Avoids on :=
  fun x hx ↦ hr x ((covers_inverse r x).mp hx)

end UndoRecord

theorem Rewrites.spared (hw : Rewrites m rs m') (hrs : ∀ r ∈ rs, r.Avoids on) :
    m.Spared on m' := by
  induction hw with
  | nil m => exact .refl m
  | cons _ _ ih =>
      obtain ⟨hr, hrest⟩ := List.forall_mem_cons.mp hrs
      exact (hr.spared_onto _).trans (ih hrest)

/-- Where records that do not overlap were applied, the bytes of each are in place. -/
theorem Rewrites.bytes_eq (hw : Rewrites m rs m') (hd : rs.Pairwise UndoRecord.Disjoint)
    (hr : r ∈ rs) : m'.bytes r.address r.after.length = r.after := by
  induction hw with
  | nil => cases hr
  | @cons m m' q rs _ hrest ih =>
      obtain ⟨hq, hd⟩ := List.pairwise_cons.mp hd
      rcases List.mem_cons.mp hr with rfl | hr
      · -- the records after it avoid its bytes
        have hs : (r.onto m).Spared r.Covers m' := hrest.spared fun q hmem ↦ (hq q hmem).symm
        calc m'.bytes r.address r.after.length
          _ = (r.onto m).bytes r.address r.after.length :=
            Memory.bytes_congr fun x hx hlt ↦ hs.byte x ⟨hx, hlt⟩
          _ = r.after := Memory.bytes_store ..
      · exact ih hd hr

theorem Unwinds.spared (hu : Unwinds m rs m') (hrs : ∀ r ∈ rs, r.Avoids on) : m.Spared on m' :=
  (hu.rewrites.spared hrs).symm

namespace Transaction

variable {t : Transaction}

def Spares (on : Address → Prop) (t : Transaction) : Prop := ∀ r ∈ t.records, r.Avoids on

/-- Rolling back keeps to the places of the records, also where it turns round halfway. -/
theorem Spares.rollback (ht : t.Spares on) (h : Host) :
    (t.rollback h).2.1.Spares on ∧ h.memory.Spared on (t.rollback h).2.2.memory := by
  by_cases hphase : t.phase = .rolledBack
  · rw [rollback_of_rolledBack hphase]
    exact ⟨ht, .refl _⟩
  · rcases rollback_cases hphase h with ⟨m, hu, heq⟩ | ⟨-, e, heq⟩
    · rw [heq]
      exact ⟨ht, hu.spared ht⟩
    · rw [heq]
      exact ⟨ht, .refl _⟩

theorem Spares.reapply (ht : t.Spares on) (h : Host) :
    (t.reapply h).2.1.Spares on ∧ h.memory.Spared on (t.reapply h).2.2.memory := by
  by_cases hphase : t.phase = .rolledBack
  · rcases reapply_cases hphase h with ⟨m, hw, heq⟩ | ⟨-, e, heq⟩
    · rw [heq]
      exact ⟨ht, hw.spared ht⟩
    · rw [heq]
      exact ⟨ht, .refl _⟩
  · rw [Transaction.reapply, if_pos hphase]
    exact ⟨ht, .refl _⟩

theorem Spares.release (ht : t.Spares on) (h : Host) :
    h.memory.Spared on (t.release h).memory := by
  have hback := (ht.rollback h).2
  unfold Transaction.release
  split
  · rcases heq : t.rollback h with ⟨e | u, t', h'⟩
    all_goals
      rw [heq] at hback
      exact hback
  · exact .refl _

end Transaction

end HotPatch
