import HotPatch.Transaction

/-!
# What was reported before

Nothing that the engine does depends on what it has reported so far: with older reports beneath
those that are there, every operation answers the same and does the same to the host.
-/

namespace HotPatch

class HasLog (β : Type) where
  /-- The same with older reports beneath those that are there. -/
  atop : List LogRecord → β → β

export HasLog (atop)

namespace HasLog

instance : HasLog Host := ⟨fun older h ↦ { h with log := h.log ++ older }⟩

instance {α β : Type} [HasLog β] : HasLog (α × β) := ⟨fun older p ↦ (p.1, atop older p.2)⟩

@[simp] theorem atop_mk {α β : Type} [HasLog β] (older : List LogRecord) (a : α) (x : β) :
    atop older (a, x) = (a, atop older x) := rfl

end HasLog

def SameButLog {β : Type} [HasLog β] (x y : β) : Prop :=
  ∃ older older' z, x = atop older z ∧ y = atop older' z

namespace SameButLog

variable {α β γ : Type} [HasLog β] [HasLog γ] {x y : β}

theorem map (hs : SameButLog x y) {f : β → γ}
    (hf : ∀ older x, f (atop older x) = atop older (f x)) : SameButLog (f x) (f y) := by
  obtain ⟨older, older', z, rfl, rfl⟩ := hs
  exact ⟨older, older', f z, hf older z, hf older' z⟩

theorem mk_iff {a b : α} : SameButLog (a, x) (b, y) ↔ b = a ∧ SameButLog x y := by
  constructor
  · rintro ⟨older, older', z, hx, hy⟩
    obtain ⟨rfl, rfl⟩ := Prod.mk.inj hx
    obtain ⟨rfl, rfl⟩ := Prod.mk.inj hy
    exact ⟨rfl, older, older', z.2, rfl, rfl⟩
  · rintro ⟨rfl, older, older', z, rfl, rfl⟩
    exact ⟨older, older', (b, z), rfl, rfl⟩

theorem host_iff {h h' : Host} : SameButLog h h' ↔ h' = { h with log := h'.log } := by
  constructor
  · rintro ⟨older, older', z, rfl, rfl⟩
    rfl
  · intro heq
    refine ⟨h.log, h'.log, { h with log := [] }, rfl, ?_⟩
    exact heq

theorem refl (h : Host) : SameButLog h h := host_iff.mpr rfl

theorem note_left {h h' : Host} (hs : SameButLog h h') (level : LogLevel) (message : String) :
    SameButLog (h.note level message) h' := by
  rw [host_iff] at hs ⊢
  rw [hs]
  rfl

theorem note_right {h h' : Host} (hs : SameButLog h h') (level : LogLevel) (message : String) :
    SameButLog h (h'.note level message) := by
  rw [host_iff] at hs ⊢
  rw [hs]
  rfl

end SameButLog

variable {older : List LogRecord} {h : Host}

namespace Host

@[simp] theorem memory_atop (older : List LogRecord) (h : Host) :
    (atop older h).memory = h.memory := rfl

@[simp] theorem note_atop (older : List LogRecord) (h : Host) (level : LogLevel)
    (message : String) : (atop older h).note level message = atop older (h.note level message) :=
  rfl

theorem assertEven_atop (expected new : List UInt8) :
    (atop older h).assertEven expected new = atop older (h.assertEven expected new) := by
  unfold assertEven
  split <;> rfl

/-- Older reports stay beneath what a write reports. -/
theorem write_atop (a : Address) (expected new : List UInt8) :
    (atop older h).write a expected new = atop older (h.write a expected new) := by
  unfold write
  rw [memory_atop, assertEven_atop]
  split <;> rfl

theorem writeQuietly_atop (a : Address) (expected new : List UInt8) :
    (atop older h).writeQuietly a expected new = atop older (h.writeQuietly a expected new) := by
  unfold writeQuietly
  rw [memory_atop, assertEven_atop]
  rfl

theorem allocate_atop (origin : Address) (size : Nat) :
    (atop older h).allocate origin size = atop older (h.allocate origin size) := by
  have hpool : (atop older h).pool = h.pool := rfl
  unfold allocate
  rw [hpool, memory_atop]
  split <;> rfl

end Host

namespace UndoRecord

theorem apply_atop (r : UndoRecord) : r.apply (atop older h) = atop older (r.apply h) :=
  Host.write_atop ..

theorem restore_atop (r : UndoRecord) : r.restore (atop older h) = atop older (r.restore h) :=
  Host.write_atop ..

theorem applyQuietly_atop (r : UndoRecord) (h : Host) :
    r.applyQuietly (atop older h) = atop older (r.applyQuietly h) := h.writeQuietly_atop ..

theorem restoreQuietly_atop (r : UndoRecord) (h : Host) :
    r.restoreQuietly (atop older h) = atop older (r.restoreQuietly h) := h.writeQuietly_atop ..

theorem make_atop (a : Address) (new : List UInt8) :
    make a new (atop older h) = atop older (make a new h) := by
  unfold make
  rw [Host.memory_atop]
  cases capture h.memory a new with
  | error e => rfl
  | ok r =>
      dsimp only
      rw [r.apply_atop]
      rcases r.apply h with ⟨_ | _, _⟩ <;> rfl

theorem retarget_atop (r : UndoRecord) (new : List UInt8) :
    r.retarget new (atop older h) = atop older (r.retarget new h) := by
  have hwrite : (atop older h).write r.address r.after new =
      atop older (h.write r.address r.after new) := Host.write_atop ..
  rcases heq : h.write r.address r.after new with ⟨e | u, h'⟩
  · rw [heq] at hwrite
    rw [retarget_of_error heq, retarget_of_error hwrite]
    rfl
  · rw [heq] at hwrite
    have hlength := Host.length_eq_of_write heq
    rw [retarget_of_ok hlength heq, retarget_of_ok hlength hwrite]
    rfl

end UndoRecord

/-! ## Transactions -/

namespace Transaction

variable {t : Transaction}

theorem push_atop (r : UndoRecord) :
    t.push r (atop older h) = atop older (t.push r h) := by
  unfold push
  rw [r.apply_atop]
  rcases r.apply h with ⟨_ | _, _⟩ <;> rfl

theorem write_atop (a : Address) (new : List UInt8) :
    t.write a new (atop older h) = atop older (t.write a new h) := by
  unfold write
  rw [Host.memory_atop]
  split
  · rfl
  · exact push_atop _

theorem perform_atop (w : Write) : t.perform w (atop older h) = atop older (t.perform w h) := by
  have hnear (code : Option (List UInt8)) (a destination : Address) :
      t.writeNear code a destination (atop older h) =
        atop older (t.writeNear code a destination h) := by
    cases code with
    | none => rfl
    | some code => exact write_atop a code
  cases w with
  | bytes a new => exact write_atop a new
  | number size a value => exact write_atop a _
  | nops a count => exact write_atop a _
  | call a destination => exact hnear ..
  | jump a destination => exact hnear ..
  | expecting a new expected =>
      unfold perform writeExpecting
      dsimp only
      rw [Host.memory_atop]
      split
      · rfl
      · split
        · exact push_atop _
        · rfl

theorem redo_atop (rs : List UndoRecord) : redo rs (atop older h) = atop older (redo rs h) := by
  induction rs generalizing h with
  | nil => rfl
  | cons r rs ih =>
      rw [redo, redo, r.apply_atop]
      rcases r.apply h with ⟨e | _, h₁⟩
      · rw [HasLog.atop_mk]
        exact ih (h := h₁.note ..)
      · exact ih

theorem undo_atop (rs : List UndoRecord) : undo rs (atop older h) = atop older (undo rs h) := by
  induction rs generalizing h with
  | nil => rfl
  | cons r rs ih =>
      rw [undo, undo, r.restore_atop]
      rcases r.restore h with ⟨e | _, h₁⟩
      · rw [HasLog.atop_mk]
        exact ih (h := h₁.note ..)
      · exact ih

theorem restoreEach_atop (rs done : List UndoRecord) :
    restoreEach rs done (atop older h) = atop older (restoreEach rs done h) := by
  induction rs generalizing done h with
  | nil => rfl
  | cons r rs ih =>
      rw [restoreEach, restoreEach, r.restore_atop]
      rcases r.restore h with ⟨e | _, h₁⟩
      · exact congrArg (Prod.mk _) (redo_atop done)
      · exact ih (r :: done)

theorem applyEach_atop (rs done : List UndoRecord) :
    applyEach rs done (atop older h) = atop older (applyEach rs done h) := by
  induction rs generalizing done h with
  | nil => rfl
  | cons r rs ih =>
      rw [applyEach, applyEach, r.apply_atop]
      rcases r.apply h with ⟨e | _, h₁⟩
      · exact congrArg (Prod.mk _) (undo_atop done)
      · exact ih (r :: done)

theorem rollback_atop : t.rollback (atop older h) = atop older (t.rollback h) := by
  unfold rollback
  split
  · rfl
  · rw [restoreEach_atop]
    rcases restoreEach t.records.reverse [] h with ⟨_ | _, _⟩ <;> rfl

theorem reapply_atop : t.reapply (atop older h) = atop older (t.reapply h) := by
  unfold reapply
  split
  · rfl
  · rw [applyEach_atop]
    rcases applyEach t.records [] h with ⟨_ | _, _⟩ <;> rfl

theorem release_atop : t.release (atop older h) = atop older (t.release h) := by
  unfold release
  split
  · rw [rollback_atop]
    rcases t.rollback h with ⟨_ | _, _, _⟩ <;> rfl
  · rfl

end Transaction

end HotPatch
