import HotPatch.Proofs.Host
import HotPatch.UndoRecord

/-!
# Applying and restoring records

A record fits a memory that holds the bytes it replaces. Applying it then leads to a memory that the
inverse record fits, and from there back. Records that are applied one after the other can be
restored in reverse order, however they overlap.
-/

namespace HotPatch

namespace UndoRecord

variable {r : UndoRecord} {m : Memory} {h : Host}

def inverse (r : UndoRecord) : UndoRecord := ⟨r.address, r.after, r.before, r.length_eq.symm⟩

theorem restore_eq (r : UndoRecord) (h : Host) : r.restore h = r.inverse.apply h := rfl

theorem restoreQuietly_eq (r : UndoRecord) (h : Host) :
    r.restoreQuietly h = r.inverse.applyQuietly h := rfl

def Fits (r : UndoRecord) (m : Memory) : Prop := m.Holds r.address r.before

def onto (r : UndoRecord) (m : Memory) : Memory := m.store r.address r.after

def Covers (r : UndoRecord) (x : Address) : Prop :=
  r.address ≤ x ∧ x < r.address + r.after.length

theorem byte_onto_of_covers (m : Memory) {x : Nat} (hx : r.Covers x) :
    (r.onto m).byte x = r.after.getD (x - r.address) 0 :=
  Memory.byte_store_of_mem hx.1 hx.2

theorem byte_onto_of_not_covers (m : Memory) {x : Nat} (hx : ¬ r.Covers x) :
    (r.onto m).byte x = m.byte x :=
  Memory.byte_store_of_not_mem hx

@[simp] theorem covers_inverse (r : UndoRecord) (x : Address) :
    r.inverse.Covers x ↔ r.Covers x := by
  simp only [Covers, inverse, r.length_eq]

theorem apply_eq_ok (hfit : r.Fits h.memory) :
    r.apply h = (.ok (), h.withMemory (r.onto h.memory)) :=
  Host.write_eq_ok r.length_eq hfit

theorem apply_eq_error (hfit : ¬ r.Fits h.memory) : ∃ e, r.apply h = (.error e, h) :=
  Host.write_eq_error r.length_eq hfit

theorem applyQuietly_eq_ok (hfit : r.Fits h.memory) :
    r.applyQuietly h = (.ok (), h.withMemory (r.onto h.memory)) :=
  Host.writeQuietly_eq_ok r.length_eq hfit

theorem applyQuietly_eq_error (hfit : ¬ r.Fits h.memory) :
    ∃ e, r.applyQuietly h = (.error e, h) :=
  Host.writeQuietly_eq_error r.length_eq hfit

/-- Nothing but memory changes, whether or not the record fits. -/
theorem applyQuietly_snd (r : UndoRecord) (h : Host) :
    (r.applyQuietly h).2 = h.withMemory (r.applyQuietly h).2.memory := by
  by_cases hfit : r.Fits h.memory
  · rw [applyQuietly_eq_ok hfit]
    rfl
  · obtain ⟨e, he⟩ := applyQuietly_eq_error hfit
    rw [he]
    rfl

theorem Fits.inverse (hfit : r.Fits m) : r.inverse.Fits (r.onto m) := by
  refine ⟨Memory.admits_store.mpr ?_, Memory.bytes_store ..⟩
  exact r.length_eq ▸ hfit.admits

theorem Fits.inverse_onto (hfit : r.Fits m) : r.inverse.onto (r.onto m) = m :=
  Memory.store_store_of_bytes hfit.bytes_eq r.length_eq.symm

/-- A range is captured exactly if it is accessible, and as it is then. -/
theorem capture_eq_ok_iff {a : Address} {new : List UInt8} :
    capture m a new = .ok r ↔ m.Accessible a new.length ∧ r = ofWrite m a new := by
  unfold capture
  split
  · rename_i before hread
    obtain ⟨haccessible, rfl⟩ := Memory.readBytes_eq_ok_iff.mp hread
    rw [Except.ok.injEq, eq_comm]
    exact (and_iff_right haccessible).symm
  · rename_i e hread
    refine iff_of_false nofun fun h ↦ ?_
    rw [Memory.readBytes_eq_ok_iff.mpr ⟨h.1, rfl⟩] at hread
    cases hread

theorem capture_eq_ok {a : Address} {new : List UInt8} (hc : capture m a new = .ok r) :
    r = ofWrite m a new := (capture_eq_ok_iff.mp hc).2

theorem fits_ofWrite {a : Address} {new : List UInt8} (hadmits : m.Admits a new.length) :
    (ofWrite m a new).Fits m :=
  ⟨(m.length_bytes a _).symm ▸ hadmits, (m.length_bytes a _).symm ▸ rfl⟩

theorem Fits.eq_ofWrite (hfit : r.Fits m) : r = ofWrite m r.address r.after := by
  obtain ⟨a, before, after, hlength⟩ := r
  obtain rfl : before = m.bytes a after.length := by
    rw [← hlength]
    exact hfit.bytes_eq.symm
  rfl

/-- To make the write anew is to apply the record. -/
theorem Fits.make_eq_ok (hfit : r.Fits h.memory) :
    make r.address r.after h = (.ok r, h.withMemory (r.onto h.memory)) := by
  have hadmits : h.memory.Admits r.address r.after.length := r.length_eq ▸ hfit.admits
  have hcapture : capture h.memory r.address r.after = .ok r :=
    capture_eq_ok_iff.mpr ⟨hadmits.accessible, hfit.eq_ofWrite⟩
  simp only [make, hcapture, apply_eq_ok hfit]

/-- A new record is captured and applied where memory admits it, and otherwise nothing happens. -/
theorem make_cases (a : Address) (new : List UInt8) (h : Host) :
    (¬ h.memory.Admits a new.length ∧ ∃ e, make a new h = (.error e, h)) ∨
      ∃ r, r.address = a ∧ r.after = new ∧ r.Fits h.memory ∧
        make a new h = (.ok r, h.withMemory (r.onto h.memory)) := by
  by_cases hadmits : h.memory.Admits a new.length
  · have hfit := fits_ofWrite hadmits
    exact .inr ⟨ofWrite h.memory a new, rfl, rfl, hfit, hfit.make_eq_ok⟩
  · refine .inl ⟨hadmits, ?_⟩
    cases hc : capture h.memory a new with
    | error e => exact ⟨e, by simp only [make, hc]⟩
    | ok r =>
        obtain rfl := capture_eq_ok hc
        have hnot : ¬ (ofWrite h.memory a new).Fits h.memory :=
          fun hfit ↦ hadmits ((ofWrite h.memory a new).length_eq ▸ hfit.admits)
        obtain ⟨e, he⟩ := apply_eq_error hnot
        exact ⟨e, by simp only [make, hc, he]⟩

theorem make_eq_ok {a : Address} {new : List UInt8} {h' : Host}
    (hm : make a new h = (.ok r, h')) : r.address = a ∧ r.after = new := by
  rcases make_cases a new h with ⟨-, e, hmake⟩ | ⟨q, haddress, hafter, -, hmake⟩
  · rw [hmake] at hm
    cases hm
  · rw [hmake] at hm
    cases hm
    exact ⟨haddress, hafter⟩

def replacing (r : UndoRecord) (after : List UInt8) (hlength : r.after.length = after.length) :
    UndoRecord :=
  ⟨r.address, r.after, after, hlength⟩

/-- New bytes replace the applied ones by a write of its own, or nothing happens. -/
theorem retarget_cases (r : UndoRecord) (after : List UInt8) (h : Host) :
    (∃ e, ¬ (r.after.length = after.length ∧ h.memory.Holds r.address r.after) ∧
        r.retarget after h = (.error e, h.assertEven r.after after)) ∨
      ∃ hlength : r.after.length = after.length, (r.replacing after hlength).Fits h.memory ∧
        r.retarget after h = (.ok (r.withAfter after hlength),
          h.withMemory ((r.replacing after hlength).onto h.memory)) := by
  by_cases hfit : r.after.length = after.length ∧ h.memory.Holds r.address r.after
  · obtain ⟨hlength, hold⟩ := hfit
    exact .inr ⟨hlength, hold, retarget_of_ok hlength (Host.write_eq_ok hlength hold)⟩
  · obtain ⟨e, he⟩ : ∃ e, h.write r.address r.after after =
        (.error e, h.assertEven r.after after) := by
      refine Host.write_eq_assertEven fun hall ↦ hfit ?_
      have hlength : r.after.length = after.length := by rw [← hall.2, Memory.length_bytes]
      exact ⟨hlength, (Host.holds_iff hlength).mpr hall⟩
    exact .inl ⟨e, hfit, retarget_of_error he⟩

end UndoRecord

/-! ## Records in order -/

/-- The records, applied in order, lead from one memory to another. -/
inductive Rewrites : Memory → List UndoRecord → Memory → Prop where
  | nil (m : Memory) : Rewrites m [] m
  | cons {m m' : Memory} {r : UndoRecord} {rs : List UndoRecord} (hfit : r.Fits m)
      (hrest : Rewrites (r.onto m) rs m') : Rewrites m (r :: rs) m'

namespace Rewrites

variable {m m₁ m₂ m' : Memory} {r : UndoRecord} {rs rs' : List UndoRecord}

theorem page_eq (hw : Rewrites m rs m') : m'.page = m.page := by
  induction hw with
  | nil => rfl
  | cons _ _ ih => exact ih

theorem bounds_eq (hw : Rewrites m rs m') : m'.low = m.low ∧ m'.high = m.high := by
  induction hw with
  | nil => exact ⟨rfl, rfl⟩
  | cons _ _ ih => exact ih

theorem mapped_iff (hw : Rewrites m rs m') {x : Address} : m'.Mapped x ↔ m.Mapped x := by
  rw [Memory.Mapped, Memory.Mapped, hw.page_eq]

theorem single (hfit : r.Fits m) : Rewrites m [r] (r.onto m) := .cons hfit (.nil _)

theorem append (h₁ : Rewrites m rs m₁) (h₂ : Rewrites m₁ rs' m') : Rewrites m (rs ++ rs') m' := by
  induction h₁ with
  | nil => exact h₂
  | cons hfit _ ih => exact .cons hfit (ih h₂)

theorem unique (h₁ : Rewrites m rs m₁) (h₂ : Rewrites m rs m₂) : m₁ = m₂ := by
  induction h₁ with
  | nil =>
      cases h₂
      rfl
  | cons _ _ ih =>
      cases h₂ with
      | cons _ hrest => exact ih hrest

/-- Records about no bytes can be applied anywhere. -/
theorem of_empty (hrs : ∀ r ∈ rs, r.before = [] ∧ r.after = []) (m : Memory) :
    Rewrites m rs m := by
  induction rs with
  | nil => exact .nil m
  | cons r rs ih =>
      obtain ⟨hbefore, hafter⟩ := hrs r (List.mem_cons_self ..)
      have hfit : r.Fits m := by
        refine ⟨?_, by rw [hbefore]; rfl⟩
        rw [hbefore]
        exact ⟨fun h ↦ absurd rfl h, fun x h₁ h₂ ↦ absurd h₁ (Nat.not_le.mpr h₂),
          fun x h₁ h₂ ↦ absurd h₁ (Nat.not_le.mpr h₂)⟩
      have hsame : r.onto m = m := by rw [UndoRecord.onto, hafter, Memory.store_nil]
      refine .cons hfit ?_
      rw [hsame]
      exact ih fun q hq ↦ hrs q (List.mem_cons_of_mem r hq)

/-- A list can be written if its first record can, and then the others. -/
theorem exists_cons_iff {r : UndoRecord} :
    (∃ m', Rewrites m (r :: rs) m') ↔ r.Fits m ∧ ∃ m', Rewrites (r.onto m) rs m' := by
  constructor
  · rintro ⟨m', hw⟩
    cases hw with
    | cons hfit hrest => exact ⟨hfit, m', hrest⟩
  · rintro ⟨hfit, m', hrest⟩
    exact ⟨m', .cons hfit hrest⟩

theorem append_iff : Rewrites m (rs ++ rs') m' ↔ ∃ m₁, Rewrites m rs m₁ ∧ Rewrites m₁ rs' m' := by
  refine ⟨fun hw ↦ ?_, fun ⟨_, h₁, h₂⟩ ↦ h₁.append h₂⟩
  induction rs generalizing m with
  | nil => exact ⟨m, .nil m, hw⟩
  | cons r rs ih =>
      cases hw with
      | cons hfit hrest =>
          obtain ⟨m₁, h₁, h₂⟩ := ih hrest
          exact ⟨m₁, .cons hfit h₁, h₂⟩

end Rewrites

/-- The records, restored in reverse order, lead from one memory to another. -/
def Unwinds (m : Memory) (rs : List UndoRecord) (m' : Memory) : Prop :=
  Rewrites m (rs.reverse.map UndoRecord.inverse) m'

namespace Unwinds

variable {m m₁ m₂ m' : Memory} {rs rs' : List UndoRecord}

theorem nil (m : Memory) : Unwinds m [] m := Rewrites.nil m

theorem mapped_iff (hu : Unwinds m rs m') {x : Address} : m'.Mapped x ↔ m.Mapped x :=
  Rewrites.mapped_iff hu

theorem unique (h₁ : Unwinds m rs m₁) (h₂ : Unwinds m rs m₂) : m₁ = m₂ := Rewrites.unique h₁ h₂

/-- Of two groups of records the later one is undone first. -/
theorem append_iff :
    Unwinds m (rs ++ rs') m' ↔ ∃ m₁, Unwinds m rs' m₁ ∧ Unwinds m₁ rs m' := by
  rw [Unwinds, List.reverse_append, List.map_append, Rewrites.append_iff]
  rfl

end Unwinds

/-- What was made in order can be undone in reverse. -/
theorem Rewrites.unwinds {m m' : Memory} {rs : List UndoRecord} (hw : Rewrites m rs m') :
    Unwinds m' rs m := by
  induction hw with
  | nil m => exact .nil m
  | @cons m m' r rs hfit _ ih =>
      rw [← List.singleton_append, Unwinds.append_iff]
      refine ⟨r.onto m, ih, ?_⟩
      have hback := Rewrites.single hfit.inverse
      rwa [hfit.inverse_onto] at hback

@[simp] theorem UndoRecord.inverse_inverse (r : UndoRecord) : r.inverse.inverse = r := rfl

@[simp] theorem UndoRecord.inverse_map_inverse (rs : List UndoRecord) :
    (rs.map inverse).map inverse = rs := by
  simp [Function.comp_def]

/-- Records that were restored can be applied again. -/
theorem Unwinds.rewrites {m m' : Memory} {rs : List UndoRecord} (hu : Unwinds m rs m') :
    Rewrites m' rs m := by
  have hback := Rewrites.unwinds hu
  rwa [Unwinds, ← List.map_reverse, List.reverse_reverse, UndoRecord.inverse_map_inverse] at hback

end HotPatch
