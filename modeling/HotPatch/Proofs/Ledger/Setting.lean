import HotPatch.Proofs.Ledger.Basic
import HotPatch.Proofs.Setting.Group

/-!
# The ledger of settings

A setting owes what its write that is in memory replaced, wherever that write has moved to.
-/

namespace HotPatch

open Host

variable {x : Address} {v : UInt8} {own : Bool} {total d : Int} {h h' : Host} {s : Site}

namespace Host.InBalance

theorem onto {r : UndoRecord} (hb : InBalance x v own total d h) (hfit : r.Fits h.memory) :
    InBalance x v own total (d + r.debt x v) (h.withMemory (r.onto h.memory)) :=
  (hb.rewrites (.single hfit) (.refl _)).congr (by simp)

end Host.InBalance

/-- To replace the bytes of an applied record is to change what it owes. -/
theorem UndoRecord.debt_withAfter (r : UndoRecord) {after : List UInt8}
    (hlength : r.after.length = after.length) :
    (r.withAfter after hlength).debt x v = r.debt x v + (r.replacing after hlength).debt x v := by
  simp only [debt, withAfter, replacing]
  omega

namespace Setting

variable {y : Setting} {ys done : List Setting}

def debt (x : Address) (v : UInt8) (y : Setting) : Int := debts x v y.live.toList

def owed (x : Address) (v : UInt8) (ys : List Setting) : Int := (ys.map (debt x v)).sum

@[simp] theorem owed_nil : owed x v [] = 0 := rfl

@[simp] theorem owed_cons : owed x v (y :: ys) = y.debt x v + owed x v ys := by
  simp [owed]

@[simp] theorem owed_append : owed x v (ys ++ done) = owed x v ys + owed x v done := by
  simp [owed]

@[simp] theorem owed_reverse (ys : List Setting) : owed x v ys.reverse = owed x v ys := by
  simp [owed, List.map_reverse]

theorem debt_eq_zero (hy : y.live = none) : y.debt x v = 0 := by
  rw [debt, hy]
  rfl

theorem debt_eq {r : UndoRecord} (hy : y.live = some r) : y.debt x v = r.debt x v := by
  simp [debt, hy]

theorem debt_congr {z : Setting} (hlive : y.live = z.live) : y.debt x v = z.debt x v := by
  rw [debt, hlive, debt]

theorem owed_of_unwritten (hys : Unwritten ys) : owed x v ys = 0 := by
  induction ys with
  | nil => rfl
  | cons y ys ih =>
      rw [owed_cons, debt_eq_zero (hys y (List.mem_cons_self ..)),
        ih fun z hz ↦ hys z (List.mem_cons_of_mem y hz)]
      rfl

/-! ## One setting -/

theorem make_balanced (hb : InBalance x v own total (d + y.debt x v) h) (hy : y.live = none)
    (a : Address) (bytes : List UInt8) :
    (∃ e, UndoRecord.make a bytes h = (.error e, h)) ∨
      ∃ r h', UndoRecord.make a bytes h = (.ok r, h') ∧
        InBalance x v own total (d + debt x v { y with live := some r }) h' := by
  rcases UndoRecord.make_cases a bytes h with ⟨-, herror⟩ | ⟨r, -, -, hfit, hmake⟩
  · exact .inl herror
  · rw [debt_eq_zero hy, Int.add_zero] at hb
    exact .inr ⟨r, _, hmake, (hb.onto hfit).congr (by rw [debt_eq rfl])⟩

/-- Wherever the write of a setting goes, what is in memory is what the setting owes. -/
theorem writeAt_balanced (hb : InBalance x v own total (d + y.debt x v) h) (a : Address)
    (bytes : List UInt8) :
    ∃ r z h', y.writeAt a bytes h = (r, z, h') ∧ InBalance x v own total (d + z.debt x v) h' := by
  unfold writeAt
  cases hlive : y.live with
  | none =>
      rcases make_balanced hb hlive a bytes with ⟨e, hmake⟩ | ⟨r, h', hmake, hb'⟩
      · simp only [hmake]
        exact ⟨_, y, h, rfl, hb⟩
      · simp only [hmake]
        exact ⟨_, _, h', rfl, hb'⟩
  | some old =>
      have hold := debt_eq (x := x) (v := v) hlive
      by_cases ha : old.address = a
      · simp only [if_pos ha]
        rcases old.retarget_cases bytes h with ⟨e, -, heq⟩ | ⟨hlength, hfit, heq⟩
        · simp only [heq]
          exact ⟨_, y, _, rfl, hb.quiet (quiet_assertEven ..)⟩
        · simp only [heq]
          have hnew : debt x v { y with live := some (old.withAfter bytes hlength) } =
              (old.withAfter bytes hlength).debt x v := debt_eq rfl
          refine ⟨_, { y with live := some (old.withAfter bytes hlength) }, _, rfl,
            (hb.onto hfit).congr ?_⟩
          rw [hnew, UndoRecord.debt_withAfter, hold]
          omega
      · simp only [if_neg ha, UndoRecord.restore_eq]
        by_cases hfit : old.inverse.Fits h.memory
        · have hb' : InBalance x v own total (d + debt x v { y with live := none })
              (h.withMemory (old.inverse.onto h.memory)) := by
            refine (hb.onto hfit).congr ?_
            rw [debt_inverse, hold, debt_eq_zero rfl]
            omega
          simp only [UndoRecord.apply_eq_ok hfit]
          rcases make_balanced hb' rfl a bytes with ⟨e, hmake⟩ | ⟨r, h', hmake, hb''⟩
          · simp only [hmake]
            exact ⟨_, _, _, rfl, hb'⟩
          · simp only [hmake]
            exact ⟨_, _, h', rfl, hb''⟩
        · obtain ⟨e, he⟩ := UndoRecord.apply_eq_error hfit
          simp only [he]
          exact ⟨_, y, h, rfl, hb⟩

theorem writeLive_balanced (hb : InBalance x v own total (d + y.debt x v) s.host) :
    ∃ r z s', y.writeLive s = (r, z, s') ∧ InBalance x v own total (d + z.debt x v) s'.host := by
  unfold writeLive
  split
  · exact ⟨_, y, s, rfl, hb⟩
  · rename_i b _
    have hlocated := hb.quiet (locate_quiet b s)
    split
    · rename_i s₁ heq
      rw [heq] at hlocated
      refine ⟨_, _, _, rfl, ?_⟩
      split
      · exact hlocated
      · exact hlocated.quiet (quiet_note ..)
    · rename_i a s₁ heq
      rw [heq] at hlocated
      obtain ⟨r, z, h', hwrite, hb'⟩ := writeAt_balanced hlocated a (b.width.encode y.value)
      simp only [hwrite]
      cases r with
      | error e => exact ⟨_, z, _, rfl, hb'⟩
      | ok u => exact ⟨_, _, _, rfl, hb'.quiet (quiet_note ..)⟩

theorem restoreLive_balanced (hb : InBalance x v own total (d + y.debt x v) h) :
    ∃ r z h', y.restoreLive h = (r, z, h') ∧ InBalance x v own total (d + z.debt x v) h' := by
  unfold restoreLive
  split
  · exact ⟨_, _, h, rfl, hb⟩
  · rename_i r hlive
    rw [UndoRecord.restore_eq]
    by_cases hfit : r.inverse.Fits h.memory
    · simp only [UndoRecord.apply_eq_ok hfit]
      refine ⟨_, _, _, rfl, (hb.onto hfit).congr ?_⟩
      rw [debt_inverse, debt_eq hlive, debt_eq_zero rfl]
      omega
    · obtain ⟨e, he⟩ := UndoRecord.apply_eq_error hfit
      simp only [he]
      exact ⟨_, _, h, rfl, hb⟩

/-! ## Several settings -/

theorem writeAll_balanced (hb : InBalance x v own total (d + owed x v ys) s.host) :
    ∃ r zs s', writeAll ys s = (r, zs, s') ∧ InBalance x v own total (d + owed x v zs) s'.host := by
  induction ys generalizing d s with
  | nil => exact ⟨_, [], s, rfl, hb⟩
  | cons y ys ih =>
      have hframe : InBalance x v own total (d + owed x v ys + y.debt x v) s.host :=
        hb.congr (by rw [owed_cons]; omega)
      obtain ⟨r, z, s₁, heq, hb₁⟩ := writeLive_balanced hframe
      rw [writeAll, heq]
      cases r with
      | error e => exact ⟨_, z :: ys, s₁, rfl, hb₁.congr (by rw [owed_cons]; omega)⟩
      | ok u =>
          have hframe' : InBalance x v own total (d + z.debt x v + owed x v ys) s₁.host :=
            hb₁.congr (by omega)
          obtain ⟨r, zs, s₂, hrest, hb₂⟩ := ih hframe'
          exact ⟨r, z :: zs, s₂, by simp only [hrest], hb₂.congr (by rw [owed_cons]; omega)⟩

theorem writeAgain_cons {r : Except SettingError Bool} {z : Setting} {s₁ : Site}
    (heq : y.writeLive s = (r, z, s₁)) (ys : List Setting) :
    ∃ s₂, Quiet s₁.host s₂.host ∧
      writeAgain (y :: ys) s = (z :: (writeAgain ys s₂).1, (writeAgain ys s₂).2) := by
  cases r with
  | ok u => exact ⟨s₁, .refl _, by rw [writeAgain, heq]⟩
  | error e => exact ⟨_, quiet_note .., by rw [writeAgain, heq]⟩

theorem writeAgain_balanced (hb : InBalance x v own total (d + owed x v ys) s.host) :
    ∃ zs s', writeAgain ys s = (zs, s') ∧ InBalance x v own total (d + owed x v zs) s'.host := by
  induction ys generalizing d s with
  | nil => exact ⟨[], s, rfl, hb⟩
  | cons y ys ih =>
      have hframe : InBalance x v own total (d + owed x v ys + y.debt x v) s.host :=
        hb.congr (by rw [owed_cons]; omega)
      obtain ⟨r, z, s₁, heq, hb₁⟩ := writeLive_balanced hframe
      obtain ⟨s₂, hquiet, heq'⟩ := writeAgain_cons heq ys
      have hframe' : InBalance x v own total (d + z.debt x v + owed x v ys) s₂.host :=
        (hb₁.quiet hquiet).congr (by omega)
      obtain ⟨zs, s₃, hrest, hb₃⟩ := ih hframe'
      exact ⟨z :: zs, s₃, by rw [heq', hrest], hb₃.congr (by rw [owed_cons]; omega)⟩

/-- Settings that cannot be restored owe what they did before. -/
theorem restoreEach_balanced
    (hb : InBalance x v own total (d + owed x v ys + owed x v done) s.host) :
    ∃ r zs s', restoreEach done ys s = (r, zs, s') ∧
      InBalance x v own total (d + owed x v zs) s'.host := by
  induction ys generalizing done s with
  | nil => exact ⟨_, done.reverse, s, rfl, hb.congr (by simp)⟩
  | cons y ys ih =>
      have hframe : InBalance x v own total (d + owed x v ys + owed x v done + y.debt x v) s.host :=
        hb.congr (by rw [owed_cons]; omega)
      obtain ⟨r, z, h₁, heq, hb₁⟩ := restoreLive_balanced hframe
      rw [restoreEach, heq]
      cases r with
      | ok u =>
          exact ih (s := { s with host := h₁ })
            (hb₁.congr (by rw [owed_cons]; omega))
      | error e =>
          have hframe' :
              InBalance x v own total (d + owed x v ys + z.debt x v + owed x v done.reverse)
              h₁ := hb₁.congr (by rw [owed_reverse]; omega)
          obtain ⟨done', s₂, hagain, hb₂⟩ :=
            writeAgain_balanced (s := { s with host := h₁ }) hframe'
          refine ⟨.error e, done' ++ z :: ys, s₂, by simp only [hagain], hb₂.congr ?_⟩
          rw [owed_append, owed_cons]
          omega

theorem restoreAll_balanced (hb : InBalance x v own total (d + owed x v ys) s.host) :
    ∃ r zs s', restoreAll ys s = (r, zs, s') ∧ InBalance x v own total (d + owed x v zs) s'.host :=
  restoreEach_balanced (hb.congr (by simp))

theorem writePending_cons (patch : String) {r : Except SettingError Bool} {z : Setting} {s₁ : Site}
    (heq : y.writeLive s = (r, z, s₁)) (hpending : y.pending = true) (ys : List Setting) :
    ∃ s₂, Quiet s₁.host s₂.host ∧ writePending patch (y :: ys) s =
      (z :: (writePending patch ys s₂).1, (writePending patch ys s₂).2) := by
  cases r with
  | ok u => exact ⟨s₁, .refl _, by rw [writePending, if_pos hpending, heq]⟩
  | error e => exact ⟨_, quiet_note .., by rw [writePending, if_pos hpending, heq]⟩

theorem writePending_balanced (patch : String)
    (hb : InBalance x v own total (d + owed x v ys) s.host) :
    ∃ zs s', writePending patch ys s = (zs, s') ∧
      InBalance x v own total (d + owed x v zs) s'.host := by
  induction ys generalizing d s with
  | nil => exact ⟨[], s, rfl, hb⟩
  | cons y ys ih =>
      by_cases hpending : y.pending = true
      · have hframe : InBalance x v own total (d + owed x v ys + y.debt x v) s.host :=
          hb.congr (by rw [owed_cons]; omega)
        obtain ⟨r, z, s₁, heq, hb₁⟩ := writeLive_balanced hframe
        obtain ⟨s₂, hquiet, heq'⟩ := writePending_cons patch heq hpending ys
        have hframe' : InBalance x v own total (d + z.debt x v + owed x v ys) s₂.host :=
          (hb₁.quiet hquiet).congr (by omega)
        obtain ⟨zs, s₃, hrest, hb₃⟩ := ih hframe'
        exact ⟨z :: zs, s₃, by rw [heq', hrest], hb₃.congr (by rw [owed_cons]; omega)⟩
      · have hframe : InBalance x v own total (d + y.debt x v + owed x v ys) s.host :=
          hb.congr (by rw [owed_cons]; omega)
        obtain ⟨zs, s₁, hrest, hb₁⟩ := ih hframe
        refine ⟨y :: zs, s₁, ?_, hb₁.congr (by rw [owed_cons]; omega)⟩
        rw [writePending, if_neg hpending, hrest]

/-- A value that is stored leaves the write in memory alone. -/
theorem live_assign {z : Setting} {w : Value} (ha : y.assign w = .ok z) : z.live = y.live := by
  unfold assign at ha
  split at ha
  · cases ha
    rfl
  · cases ha

theorem change_balanced (hb : InBalance x v own total (d + y.debt x v) s.host) (w : Value)
    (live : Bool) :
    ∃ r z s', change y w live s = (r, z, s') ∧
      InBalance x v own total (d + z.debt x v) s'.host := by
  unfold change
  cases hassign : y.assign w with
  | error e => exact ⟨_, y, s, rfl, hb⟩
  | ok z =>
      have hz := debt_congr (x := x) (v := v) (live_assign hassign)
      cases live with
      | false => exact ⟨_, z, s, rfl, hb.congr (by rw [hz])⟩
      | true =>
          obtain ⟨r, z', s₁, heq, hb₁⟩ := writeLive_balanced (hb.congr (by rw [hz]))
          simp only [if_true, heq]
          cases r with
          | ok u => exact ⟨_, z', s₁, rfl, hb₁⟩
          | error e =>
              simp only
              split
              · rename_i z'' hback
                exact ⟨_, z'', s₁, rfl, hb₁.congr (by rw [debt_congr (live_assign hback)])⟩
              · exact ⟨_, z', s₁, rfl, hb₁⟩

theorem changeFirst_balanced (hb : InBalance x v own total (d + owed x v ys) s.host) (name : String)
    (w : Value) (live : Bool) :
    ∃ r zs s', changeFirst name w live ys s = (r, zs, s') ∧
      InBalance x v own total (d + owed x v zs) s'.host := by
  induction ys generalizing d with
  | nil => exact ⟨_, [], s, rfl, hb⟩
  | cons y ys ih =>
      rw [changeFirst]
      split
      · have hframe : InBalance x v own total (d + owed x v ys + y.debt x v) s.host :=
          hb.congr (by rw [owed_cons]; omega)
        obtain ⟨r, z, s₁, heq, hb₁⟩ := change_balanced hframe w live
        exact ⟨r, z :: ys, s₁, by simp only [heq], hb₁.congr (by rw [owed_cons]; omega)⟩
      · have hframe : InBalance x v own total (d + y.debt x v + owed x v ys) s.host :=
          hb.congr (by rw [owed_cons]; omega)
        obtain ⟨r, zs, s₁, heq, hb₁⟩ := ih hframe
        exact ⟨r, y :: zs, s₁, by simp only [heq], hb₁.congr (by rw [owed_cons]; omega)⟩

end Setting

end HotPatch
