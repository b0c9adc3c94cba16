import HotPatch.Proofs.Intact

/-!
# Records that do not overlap

They can be applied in any order, and restored in any order.
-/

namespace HotPatch

variable {r q : UndoRecord} {m m' : Memory} {rs qs : List UndoRecord}

namespace UndoRecord

def Disjoint (r q : UndoRecord) : Prop := r.Avoids q.Covers

theorem Disjoint.symm (hd : r.Disjoint q) : q.Disjoint r := fun x hq hr ↦ hd x hr hq

theorem disjoint_of_le (h : r.address + r.after.length ≤ q.address ∨
    q.address + q.after.length ≤ r.address) : r.Disjoint q := by
  rintro x ⟨hr, hr'⟩ ⟨hq, hq'⟩
  rcases h with h | h
  · exact Nat.not_lt.mpr (Nat.le_trans h hq) hr'
  · exact Nat.not_lt.mpr (Nat.le_trans h hr) hq'

/-- Whether a record fits depends on the addresses that it covers alone. -/
theorem Fits.of_byte_eq (hfit : r.Fits m)
    (hpage : ∀ x, r.Covers x → m'.page (x / pageSize) = m.page (x / pageSize))
    (hbyte : ∀ x, r.Covers x → m'.byte x = m.byte x) : r.Fits m' := by
  have hcovers (x : Nat) (hx : r.address ≤ x) (hlt : x < r.address + r.before.length) :
      r.Covers x := ⟨hx, r.length_eq ▸ hlt⟩
  refine ⟨hfit.admits.of_page_eq fun x hx hlt ↦ hpage x (hcovers x hx hlt), ?_⟩
  calc m'.bytes r.address r.before.length
    _ = m.bytes r.address r.before.length :=
      Memory.bytes_congr fun x hx hlt ↦ hbyte x (hcovers x hx hlt)
    _ = r.before := hfit.bytes_eq

theorem Fits.of_onto (hfit : r.Fits m) (hd : r.Disjoint q) : r.Fits (q.onto m) :=
  hfit.of_byte_eq (fun _ _ ↦ rfl) fun x hx ↦ byte_onto_of_not_covers m (hd x hx)

theorem Fits.of_onto' (hfit : r.Fits (q.onto m)) (hd : r.Disjoint q) : r.Fits m :=
  hfit.of_byte_eq (fun _ _ ↦ rfl) fun x hx ↦ (byte_onto_of_not_covers m (hd x hx)).symm

/-- Writes that share no address can be made in either order. -/
theorem onto_comm (hd : r.Disjoint q) (m : Memory) : q.onto (r.onto m) = r.onto (q.onto m) := by
  refine Memory.ext_page_byte rfl (funext fun x ↦ ?_) rfl rfl
  by_cases hr : r.Covers x
  · have hq : ¬ q.Covers x := hd x hr
    rw [byte_onto_of_not_covers _ hq, byte_onto_of_covers _ hr, byte_onto_of_covers _ hr]
  · rw [byte_onto_of_not_covers _ hr]
    by_cases hq : q.Covers x
    · rw [byte_onto_of_covers _ hq, byte_onto_of_covers _ hq]
    · rw [byte_onto_of_not_covers _ hq, byte_onto_of_not_covers _ hq, byte_onto_of_not_covers _ hr]

end UndoRecord

namespace Rewrites

/-- The order in which records are applied does not matter when they do not overlap. -/
theorem perm (hw : Rewrites m rs m') (hp : rs.Perm qs) (hd : rs.Pairwise UndoRecord.Disjoint) :
    Rewrites m qs m' := by
  induction hp generalizing m with
  | nil => exact hw
  | cons r _ ih =>
      cases hw with
      | cons hfit hrest => exact .cons hfit (ih hrest hd.of_cons)
  | swap r q rs =>
      cases hw with
      | cons hq hrest =>
          cases hrest with
          | cons hr hrest =>
              have hdisjoint : q.Disjoint r := List.rel_of_pairwise_cons hd (List.mem_cons_self ..)
              refine .cons (hr.of_onto' hdisjoint.symm) (.cons (hq.of_onto hdisjoint) ?_)
              rwa [← UndoRecord.onto_comm hdisjoint]
  | trans hp _ ih ih' => exact ih' (ih hw hd) (hd.perm hp fun h ↦ h.symm)

/-- A record that was applied first may as well be applied last, if no other overlaps it. -/
theorem commute_onto (hw : Rewrites (r.onto m) qs m') (hfit : r.Fits m)
    (hd : ∀ q ∈ qs, r.Disjoint q) : ∃ m₁, Rewrites m qs m₁ ∧ r.Fits m₁ ∧ r.onto m₁ = m' := by
  induction qs generalizing m with
  | nil =>
      cases hw
      exact ⟨m, .nil m, hfit, rfl⟩
  | cons q qs ih =>
      obtain ⟨hq, hqs⟩ := List.forall_mem_cons.mp hd
      cases hw with
      | cons hfit' hrest =>
          rw [UndoRecord.onto_comm hq] at hrest
          obtain ⟨m₁, hw₁, hlast, heq⟩ := ih hrest (hfit.of_onto hq) hqs
          exact ⟨m₁, .cons (hfit'.of_onto' hq.symm) hw₁, hlast, heq⟩

/-- Two groups of records that do not overlap each other can change places. -/
theorem commute {m₁ : Memory} (hw : Rewrites m rs m₁) (hw' : Rewrites m₁ qs m')
    (hd : ∀ r ∈ rs, ∀ q ∈ qs, r.Disjoint q) : ∃ m₂, Rewrites m qs m₂ ∧ Rewrites m₂ rs m' := by
  induction hw with
  | nil => exact ⟨m', hw', .nil m'⟩
  | cons hfit _ ih =>
      obtain ⟨hr, hrs⟩ := List.forall_mem_cons.mp hd
      obtain ⟨m₂, hqs, hrest⟩ := ih hw' hrs
      obtain ⟨m₁, hw₁, hlast, rfl⟩ := hqs.commute_onto hfit hr
      exact ⟨m₁, hw₁, .cons hlast hrest⟩

/-- What is written is mapped. -/
theorem mapped_of_covers (hw : Rewrites m rs m') (hr : r ∈ rs) {x : Nat} (hx : r.Covers x) :
    m.Mapped x := by
  induction hw with
  | nil => cases hr
  | cons hfit _ ih =>
      rcases List.mem_cons.mp hr with rfl | hr
      · exact hfit.mapped hx
      · exact ih hr

end Rewrites

/-- Records that do not overlap can be restored in the order in which they were applied. -/
theorem Unwinds.inOrder (hu : Unwinds m rs m') (hd : rs.Pairwise UndoRecord.Disjoint) :
    Rewrites m (rs.map UndoRecord.inverse) m' := by
  have hp : (rs.reverse.map UndoRecord.inverse).Perm (rs.map UndoRecord.inverse) :=
    (List.reverse_perm rs).map _
  have hd' : (rs.map UndoRecord.inverse).Pairwise UndoRecord.Disjoint := by
    refine List.pairwise_map.mpr (hd.imp fun {r q} hdisjoint x hx hx' ↦ ?_)
    rw [UndoRecord.covers_inverse] at hx hx'
    exact hdisjoint x hx hx'
  exact Rewrites.perm hu hp (hd'.perm hp.symm fun h ↦ h.symm)

end HotPatch
