import HotPatch.Proofs.Setting.Alternation

/-!
# The course of a write

How writing a setting can go. At the address where its write is, the bytes are replaced; at another
one the write is taken back first, and when the new one is refused then, the setting is in memory no
more.
-/

namespace HotPatch

open Host

/-- Records leave the pages alone, so that the same places can be written to. -/
theorem Rewrites.admits_iff {m m' : Memory} {rs : List UndoRecord} (hw : Rewrites m rs m')
    {a n : Nat} : m'.Admits a n ↔ m.Admits a n := by
  constructor
  · intro hadmits
    apply hadmits.of_page_eq
    intro _ _ _
    rw [hw.page_eq]
  · intro hadmits
    apply hadmits.of_page_eq
    intro _ _ _
    rw [hw.page_eq]

namespace Setting

variable {x y : Setting} {s s' : Site} {m m' : Memory} {a : Address} {bytes : List UInt8}

/-- From memory `m` and the write that is in it to what the answer is, which write is in memory
then, and to memory as it is then. -/
inductive WriteCourse (a : Address) (bytes : List UInt8) (m : Memory) :
    Option UndoRecord → Except MemoryError Unit → Option UndoRecord → Memory → Prop where
  | placed {old : Option UndoRecord} {r : UndoRecord} {m₁ : Memory}
      (haway : ∀ q, old = some q → q.address ≠ a)
      (hback : Rewrites m (old.toList.map UndoRecord.inverse) m₁) (haddress : r.address = a)
      (hafter : r.after = bytes) (hfit : r.Fits m₁) :
      WriteCourse a bytes m old (.ok ()) (some r) (r.onto m₁)
  | unplaced {old : Option UndoRecord} {m₁ : Memory} {e : MemoryError}
      (haway : ∀ q, old = some q → q.address ≠ a)
      (hback : Rewrites m (old.toList.map UndoRecord.inverse) m₁)
      (hrefused : ¬ m.Admits a bytes.length) : WriteCourse a bytes m old (.error e) none m₁
  | held {r : UndoRecord} {e : MemoryError} (haway : r.address ≠ a)
      (hstays : ¬ r.inverse.Fits m) : WriteCourse a bytes m (some r) (.error e) (some r) m
  | renewed {r : UndoRecord} (haddress : r.address = a) (hlength : r.after.length = bytes.length)
      (hfit : (r.replacing bytes hlength).Fits m) :
      WriteCourse a bytes m (some r) (.ok ()) (some (r.withAfter bytes hlength))
        ((r.replacing bytes hlength).onto m)
  | kept {r : UndoRecord} {e : MemoryError} (haddress : r.address = a)
      (hrefused : ¬ (r.after.length = bytes.length ∧ m.Holds r.address r.after)) :
      WriteCourse a bytes m (some r) (.error e) (some r) m

/-- Writing starts anew once the write that was in memory is taken back. -/
theorem WriteCourse.of_make {old : Option UndoRecord} {h : Host}
    (haway : ∀ q, old = some q → q.address ≠ a)
    (hback : Rewrites m (old.toList.map UndoRecord.inverse) h.memory) (bytes : List UInt8) :
    (∃ e, UndoRecord.make a bytes h = (.error e, h) ∧
        WriteCourse a bytes m old (.error e) none h.memory) ∨
      ∃ r, UndoRecord.make a bytes h = (.ok r, h.withMemory (r.onto h.memory)) ∧
        WriteCourse a bytes m old (.ok ()) (some r) (r.onto h.memory) := by
  rcases UndoRecord.make_cases a bytes h with
    ⟨hnot, e, hmake⟩ | ⟨r, haddress, hafter, hfit, hmake⟩
  · have hrefused : ¬ m.Admits a bytes.length := by rwa [← hback.admits_iff]
    exact .inl ⟨e, hmake, .unplaced haway hback hrefused⟩
  · exact .inr ⟨r, hmake, .placed haway hback haddress hafter hfit⟩

/-- What was written is where it was to be written. -/
theorem WriteCourse.of_ok {old live : Option UndoRecord}
    (hc : WriteCourse a bytes m old (.ok ()) live m') :
    ∃ r, live = some r ∧ r.address = a ∧ r.after = bytes := by
  cases hc with
  | placed _ _ haddress hafter => exact ⟨_, rfl, haddress, hafter⟩
  | renewed haddress => exact ⟨_, rfl, haddress, rfl⟩

/-- The write of a setting goes to an address one of these ways, and no other field changes. -/
theorem writeAt_course (x : Setting) (a : Address) (bytes : List UInt8) (h : Host) :
    ∃ r live h' m, x.writeAt a bytes h = (r, { x with live }, h') ∧
      WriteCourse a bytes h.memory x.live r live m ∧ Quiet (h.withMemory m) h' := by
  unfold writeAt
  cases hlive : x.live with
  | none =>
      have hnowhere : ∀ q : UndoRecord, none = some q → q.address ≠ a := by
        intro q hq
        cases hq
      rcases WriteCourse.of_make hnowhere (.nil h.memory) bytes with
        ⟨e, hmake, hcourse⟩ | ⟨r, hmake, hcourse⟩
      · refine ⟨.error e, none, h, h.memory, ?_, hcourse, .refl h⟩
        simp only [hmake, ← hlive]
      · exact ⟨.ok (), some r, _, _, by simp only [hmake], hcourse, .refl _⟩
  | some old =>
      simp only
      split
      · rename_i haddress
        rcases old.retarget_cases bytes h with ⟨e, hrefused, heq⟩ | ⟨hlength, hfit, heq⟩
        · refine ⟨.error e, some old, _, h.memory, ?_, .kept haddress hrefused,
            quiet_assertEven h old.after bytes⟩
          simp only [heq, ← hlive]
        · exact ⟨.ok (), _, _, _, by simp only [heq], .renewed haddress hlength hfit, .refl _⟩
      · rename_i haway
        rw [UndoRecord.restore_eq]
        by_cases hback : old.inverse.Fits h.memory
        · have haway' : ∀ q, some old = some q → q.address ≠ a := by
            intro q hq
            cases hq
            exact haway
          simp only [UndoRecord.apply_eq_ok hback]
          rcases WriteCourse.of_make (h := h.withMemory (old.inverse.onto h.memory)) haway'
              (.single hback) bytes with ⟨e, hmake, hcourse⟩ | ⟨r, hmake, hcourse⟩
          · exact ⟨.error e, none, _, _, by simp only [hmake]; rfl, hcourse, .refl _⟩
          · exact ⟨.ok (), some r, _, _, by simp only [hmake]; rfl, hcourse, .refl _⟩
        · obtain ⟨e, he⟩ := UndoRecord.apply_eq_error hback
          refine ⟨.error e, some old, h, h.memory, ?_, .held haway hback, .refl h⟩
          simp only [he, ← hlive]

inductive LiveCourse (x : Setting) (s : Site) :
    Except SettingError Bool → Setting → Memory → Prop where
  | unbound (hbinding : x.binding = none) : LiveCourse x s (.ok true) x s.host.memory
  | adrift {b : Binding} (hbinding : x.binding = some b) (hnowhere : (b.locate s).1 = none) :
      LiveCourse x s (.ok false) { x with pending := true } s.host.memory
  | written {b : Binding} {a : Address} {live : Option UndoRecord} {m : Memory}
      (hbinding : x.binding = some b) (hplace : (b.locate s).1 = some a)
      (hcourse : WriteCourse a (b.width.encode x.value) s.host.memory x.live (.ok ()) live m) :
      LiveCourse x s (.ok true) { x with pending := false, live } m
  | failed {b : Binding} {a : Address} {e : MemoryError} {live : Option UndoRecord} {m : Memory}
      (hbinding : x.binding = some b) (hplace : (b.locate s).1 = some a)
      (hcourse : WriteCourse a (b.width.encode x.value) s.host.memory x.live (.error e) live m) :
      LiveCourse x s (.error (.write x.name e)) { x with live } m

theorem writeLive_course (x : Setting) (s : Site) :
    ∃ r y s' m, x.writeLive s = (r, y, s') ∧ LiveCourse x s r y m ∧
      Quiet (s.host.withMemory m) s'.host := by
  unfold writeLive
  cases hbinding : x.binding with
  | none => exact ⟨.ok true, x, s, s.host.memory, rfl, .unbound hbinding, .refl _⟩
  | some b =>
      have hquiet := locate_quiet b s
      rcases hlocate : b.locate s with ⟨place, s₁⟩
      have hplace : (b.locate s).1 = place := by rw [hlocate]
      rw [hlocate] at hquiet
      cases place with
      | none =>
          simp only [hlocate, ← hbinding]
          refine ⟨_, _, _, s.host.memory, rfl, .adrift hbinding hplace, ?_⟩
          split
          · exact hquiet
          · exact hquiet.trans (quiet_note ..)
      | some a =>
          obtain ⟨r, live, h', m, heq, hcourse, hwritten⟩ :=
            writeAt_course x a (b.width.encode x.value) s₁.host
          have hdone : Quiet (s.host.withMemory m) h' := (hquiet.withMemory m).trans hwritten
          rw [hquiet.memory] at hcourse
          simp only [hlocate, heq]
          cases r with
          | error e => exact ⟨_, _, _, m, rfl, .failed hbinding hplace hcourse, hdone⟩
          | ok u =>
              exact ⟨_, _, _, m, rfl, .written hbinding hplace hcourse,
                hdone.trans (quiet_note ..)⟩

end Setting

end HotPatch
