import HotPatch.Proofs.UndoRecord
import HotPatch.Transaction

/-!
# What a transaction does to memory

Each operation of a transaction either does its work or leaves host and transaction as they were.
An undoing or redoing that breaks off midway takes back what it did, so it belongs to the second
kind.
-/

namespace HotPatch

namespace Write

def address : Write → Address
  | .bytes a _ | .expecting a _ _ | .number _ a _ | .nops a _ | .call a _ | .jump a _ => a

/-- The bytes that a write puts there; nothing for a branch that does not reach. -/
def code? : Write → Option (List UInt8)
  | .bytes _ new | .expecting _ new _ => some new
  | .number size _ value => some (littleEndian size value)
  | .nops _ count => some (Code.nops count)
  | .call a destination => Code.callNear? a destination
  | .jump a destination => Code.jumpNear? a destination

end Write

namespace Transaction

variable {t : Transaction} {h : Host} {m m₀ : Memory} {r : UndoRecord} {rs done : List UndoRecord}

@[simp] theorem records_commit (t : Transaction) : t.commit.records = t.records := rfl

/-! ## Writing -/

theorem push_cases (t : Transaction) (r : UndoRecord) (h : Host) :
    (∃ e, t.push r h = (.error e, t, h)) ∨
      r.Fits h.memory ∧ ∃ message, t.push r h = (.ok (), { t with records := t.records ++ [r] },
        (h.withMemory (r.onto h.memory)).note .debug message) := by
  by_cases hfit : r.Fits h.memory
  · exact .inr ⟨hfit, _, by rw [push, UndoRecord.apply_eq_ok hfit]⟩
  · obtain ⟨e, he⟩ := UndoRecord.apply_eq_error hfit
    exact .inl ⟨e, by rw [push, he]⟩

/-- A write is captured and made, or it fails and everything stays as it was. -/
theorem write_cases (t : Transaction) (a : Address) (new : List UInt8) (h : Host) :
    (∃ e, t.write a new h = (.error e, t, h)) ∨
      ∃ r, r.Fits h.memory ∧ r.address = a ∧ r.after = new ∧ ∃ message,
        t.write a new h = (.ok (), { t with records := t.records ++ [r] },
          (h.withMemory (r.onto h.memory)).note .debug message) := by
  cases hc : UndoRecord.capture h.memory a new with
  | error e => exact .inl ⟨e, by rw [write, hc]⟩
  | ok r =>
      have hr := UndoRecord.capture_eq_ok hc
      rw [write, hc]
      rcases t.push_cases r h with herror | ⟨hfit, hok⟩
      · exact .inl herror
      · exact .inr ⟨r, hfit, hr ▸ rfl, hr ▸ rfl, hok⟩

theorem write_eq_ok (t : Transaction) {a : Address} (new : List UInt8)
    (hadmits : h.memory.Admits a new.length) :
    let r := UndoRecord.ofWrite h.memory a new
    r.Fits h.memory ∧ ∃ message, t.write a new h = (.ok (), { t with records := t.records ++ [r] },
      (h.withMemory (r.onto h.memory)).note .debug message) := by
  intro r
  have hcapture : UndoRecord.capture h.memory a new = .ok r :=
    UndoRecord.capture_eq_ok_iff.mpr ⟨hadmits.accessible, rfl⟩
  have hfit : r.Fits h.memory := UndoRecord.fits_ofWrite hadmits
  refine ⟨hfit, ?_⟩
  rw [write, hcapture]
  rcases t.push_cases r h with ⟨e, heq⟩ | ⟨-, hok⟩
  · rw [push, UndoRecord.apply_eq_ok hfit] at heq
    cases heq
  · exact hok

/-- A write is refused beforehand or is a plain write of its bytes. -/
theorem perform_eq (t : Transaction) (w : Write) (h : Host) :
    (∃ e, t.perform w h = (.error e, t, h)) ∨
      ∃ new, w.code? = some new ∧ t.perform w h = t.write w.address new h := by
  cases w with
  | bytes a new => exact .inr ⟨new, rfl, rfl⟩
  | number size a value => exact .inr ⟨_, rfl, rfl⟩
  | nops a count => exact .inr ⟨_, rfl, rfl⟩
  | call a destination =>
      cases hcode : Code.callNear? a destination with
      | none => exact .inl ⟨_, by rw [perform, hcode]; rfl⟩
      | some new => exact .inr ⟨new, hcode, by rw [perform, hcode]; rfl⟩
  | jump a destination =>
      cases hcode : Code.jumpNear? a destination with
      | none => exact .inl ⟨_, by rw [perform, hcode]; rfl⟩
      | some new => exact .inr ⟨new, hcode, by rw [perform, hcode]; rfl⟩
  | expecting a new expected =>
      cases hc : UndoRecord.capture h.memory a new with
      | error e => exact .inl ⟨e, by rw [perform, writeExpecting, hc]⟩
      | ok r =>
          by_cases hexp : r.before = expected
          · exact .inr ⟨new, rfl, by simp only [perform, writeExpecting, write, Write.address, hc,
              if_pos hexp]⟩
          · exact .inl ⟨.unexpectedBytes a expected r.before, by
              simp only [perform, writeExpecting, hc, if_neg hexp]⟩

/-- A write fails and changes nothing, or is made and recorded. -/
theorem perform_cases (t : Transaction) (w : Write) (h : Host) :
    (∃ e, t.perform w h = (.error e, t, h)) ∨
      ∃ r, r.Fits h.memory ∧ r.address = w.address ∧ w.code? = some r.after ∧ ∃ message,
        t.perform w h = (.ok (), { t with records := t.records ++ [r] },
          (h.withMemory (r.onto h.memory)).note .debug message) := by
  rcases t.perform_eq w h with herror | ⟨new, hcode, heq⟩
  · exact .inl herror
  · rw [heq]
    rcases t.write_cases w.address new h with herror | ⟨r, hfit, haddress, hafter, hok⟩
    · exact .inl herror
    · exact .inr ⟨r, hfit, haddress, by rw [hcode, hafter], hok⟩

/-! ## Undoing and redoing -/

theorem redo_eq (hw : Rewrites h.memory rs m) : redo rs h = h.withMemory m := by
  induction rs generalizing h with
  | nil =>
      cases hw
      rfl
  | cons r rs ih =>
      cases hw with
      | cons hfit hrest =>
          rw [redo, UndoRecord.apply_eq_ok hfit]
          exact ih hrest

theorem undo_eq (hw : Rewrites h.memory (rs.map UndoRecord.inverse) m) :
    undo rs h = h.withMemory m := by
  induction rs generalizing h with
  | nil =>
      cases hw
      rfl
  | cons r rs ih =>
      cases hw with
      | cons hfit hrest =>
          rw [undo, UndoRecord.restore_eq, UndoRecord.apply_eq_ok hfit]
          exact ih hrest

/-- Restoring goes all the way or back to `m₀`, to where the records restored so far lead when they
are applied again. -/
theorem restoreEach_cases (rs done : List UndoRecord) (h : Host)
    (hdone : Rewrites h.memory done m₀) :
    (∃ m, Rewrites h.memory (rs.map UndoRecord.inverse) m ∧
        restoreEach rs done h = (.ok (), h.withMemory m)) ∨
      (¬ ∃ m, Rewrites h.memory (rs.map UndoRecord.inverse) m) ∧
        ∃ e, restoreEach rs done h = (.error e, h.withMemory m₀) := by
  induction rs generalizing done h with
  | nil => exact .inl ⟨h.memory, .nil _, rfl⟩
  | cons r rs ih =>
      by_cases hfit : r.inverse.Fits h.memory
      · have hdone' : Rewrites (r.inverse.onto h.memory) (r :: done) m₀ :=
          .cons hfit.inverse (hfit.inverse_onto.symm ▸ hdone)
        rw [restoreEach, UndoRecord.restore_eq, UndoRecord.apply_eq_ok hfit]
        rcases ih (r :: done) (h.withMemory (r.inverse.onto h.memory)) hdone' with
          ⟨m, hm, heq⟩ | ⟨hnot, e, heq⟩
        · exact .inl ⟨m, .cons hfit hm, heq⟩
        · exact .inr ⟨fun hw ↦ hnot (Rewrites.exists_cons_iff.mp hw).2, e, heq⟩
      · obtain ⟨e, he⟩ := UndoRecord.apply_eq_error hfit
        refine .inr ⟨fun hw ↦ hfit (Rewrites.exists_cons_iff.mp hw).1, e, ?_⟩
        rw [restoreEach, UndoRecord.restore_eq, he]
        simp only [redo_eq hdone]

/-- Applying goes all the way or back to `m₀`, to where the records applied so far lead when they
are restored. -/
theorem applyEach_cases (rs done : List UndoRecord) (h : Host)
    (hdone : Rewrites h.memory (done.map UndoRecord.inverse) m₀) :
    (∃ m, Rewrites h.memory rs m ∧ applyEach rs done h = (.ok (), h.withMemory m)) ∨
      (¬ ∃ m, Rewrites h.memory rs m) ∧
        ∃ e, applyEach rs done h = (.error e, h.withMemory m₀) := by
  induction rs generalizing done h with
  | nil => exact .inl ⟨h.memory, .nil _, rfl⟩
  | cons r rs ih =>
      by_cases hfit : r.Fits h.memory
      · have hdone' : Rewrites (r.onto h.memory) ((r :: done).map UndoRecord.inverse) m₀ :=
          .cons hfit.inverse (hfit.inverse_onto.symm ▸ hdone)
        rw [applyEach, UndoRecord.apply_eq_ok hfit]
        rcases ih (r :: done) (h.withMemory (r.onto h.memory)) hdone' with
          ⟨m, hm, heq⟩ | ⟨hnot, e, heq⟩
        · exact .inl ⟨m, .cons hfit hm, heq⟩
        · exact .inr ⟨fun hw ↦ hnot (Rewrites.exists_cons_iff.mp hw).2, e, heq⟩
      · obtain ⟨e, he⟩ := UndoRecord.apply_eq_error hfit
        refine .inr ⟨fun hw ↦ hfit (Rewrites.exists_cons_iff.mp hw).1, e, ?_⟩
        rw [applyEach, he]
        simp only [undo_eq hdone]

theorem rollback_of_rolledBack (hphase : t.phase = .rolledBack) (h : Host) :
    t.rollback h = (.ok (), t, h) := by
  rw [rollback, if_pos hphase]

theorem rollback_cases (hphase : t.phase ≠ .rolledBack) (h : Host) :
    (∃ m, Unwinds h.memory t.records m ∧
        t.rollback h = (.ok (), { t with phase := .rolledBack }, h.withMemory m)) ∨
      (¬ ∃ m, Unwinds h.memory t.records m) ∧ ∃ e, t.rollback h = (.error e, t, h) := by
  rw [rollback, if_neg hphase]
  rcases restoreEach_cases t.records.reverse [] h (.nil _) with ⟨m, hm, heq⟩ | ⟨hnot, e, heq⟩
  · exact .inl ⟨m, hm, by rw [heq]⟩
  · exact .inr ⟨hnot, e, by rw [heq, Host.withMemory_self]⟩

theorem rollback_eq_ok (hphase : t.phase ≠ .rolledBack) (hu : Unwinds h.memory t.records m) :
    t.rollback h = (.ok (), { t with phase := .rolledBack }, h.withMemory m) := by
  rcases rollback_cases hphase h with ⟨m', hu', heq⟩ | ⟨hnot, -⟩
  · rw [heq, hu'.unique hu]
  · exact absurd ⟨m, hu⟩ hnot

/-- Making the writes again makes all of them or changes nothing. -/
theorem reapply_cases (hphase : t.phase = .rolledBack) (h : Host) :
    (∃ m, Rewrites h.memory t.records m ∧
        t.reapply h = (.ok (), { t with phase := .committed }, h.withMemory m)) ∨
      (¬ ∃ m, Rewrites h.memory t.records m) ∧ ∃ e, t.reapply h = (.error e, t, h) := by
  rw [reapply, if_neg (not_not_intro hphase)]
  rcases applyEach_cases t.records [] h (.nil _) with ⟨m, hm, heq⟩ | ⟨hnot, e, heq⟩
  · exact .inl ⟨m, hm, by rw [heq]⟩
  · exact .inr ⟨hnot, e, by rw [heq, Host.withMemory_self]⟩

theorem release_of_not_active (hphase : t.phase ≠ .active) (h : Host) : t.release h = h := by
  rw [release, if_neg fun hand ↦ hphase hand.1]

theorem release_of_active (hphase : t.phase = .active) (hu : Unwinds h.memory t.records m) :
    t.release h = h.withMemory m := by
  by_cases hempty : t.records = []
  · rw [hempty] at hu
    rw [release, if_neg fun hand ↦ hand.2 hempty, hu.unique (.nil _), Host.withMemory_self]
  · rw [release, if_pos ⟨hphase, hempty⟩, rollback_eq_ok (by simp [hphase]) hu]

end Transaction

end HotPatch
