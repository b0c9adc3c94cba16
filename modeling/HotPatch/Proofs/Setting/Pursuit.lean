import HotPatch.Proofs.Setting.Bounds

/-!
# Values on their way to memory

A setting is pursued as long as its value is in memory or the setting waits to be written. Whatever
is written without fail is pursued, and so is whatever waited before. What was withdrawn is pursued
again only if it can be written.
-/

namespace HotPatch

open Host

namespace Setting

variable {x y : Setting} {xs ys done : List Setting} {s s' : Site} {m m' : Memory}

/-- The value is in memory, or the setting waits for an address. -/
def Pursued (x : Setting) : Prop :=
  ∀ b, x.binding = some b → x.pending = true ∨
    ∃ r, x.live = some r ∧ r.after = b.width.encode x.value

/-- The setting has no address for now, or can be written there. -/
def Admitted (x : Setting) (s : Site) : Prop :=
  ∀ b a, x.binding = some b → (b.locate s).1 = some a → s.host.memory.Admits a b.width.length

def AdmittedEach : List Setting → Site → Prop
  | [], _ => True
  | x :: rest, s => x.Admitted s ∧ AdmittedEach rest (x.writeLive s).2.2

/-! ## Writing -/

theorem LiveCourse.pursued {b : Bool} (hc : LiveCourse x s (.ok b) y m) : y.Pursued := by
  intro b hb
  cases hc with
  | unbound hnone => cases hnone.symm.trans hb
  | adrift => exact .inl rfl
  | written hbinding _ hcourse =>
      cases hbinding.symm.trans hb
      obtain ⟨r, hlive, -, hafter⟩ := hcourse.of_ok
      exact .inr ⟨r, hlive, hafter⟩

theorem pursued_writeLive {b : Bool} (heq : x.writeLive s = (.ok b, y, s')) : y.Pursued := by
  obtain ⟨r, z, s₁, m, heq', hcourse, -⟩ := writeLive_course x s
  cases heq.symm.trans heq'
  exact hcourse.pursued

/-- A setting that waits goes on waiting when it cannot be written. -/
theorem pursued_of_pending (hpending : x.pending = true) (s : Site) :
    (x.writeLive s).2.1.Pursued := by
  obtain ⟨r, y, s', m, heq, hcourse, -⟩ := writeLive_course x s
  rw [heq]
  cases r with
  | ok b => exact hcourse.pursued
  | error e =>
      cases hcourse with
      | failed => exact fun _ _ ↦ .inl hpending

/-- Settings that were written without failure have their values in memory or wait. -/
theorem pursued_writeAll (heq : writeAll xs s = (.ok (), ys, s')) : ∀ y ∈ ys, y.Pursued := by
  induction xs generalizing s ys with
  | nil =>
      cases heq
      exact List.forall_mem_nil _
  | cons x xs ih =>
      rw [writeAll] at heq
      rcases hx : x.writeLive s with ⟨e | b, y, s₁⟩
      · rw [hx] at heq
        cases heq
      · rcases hrest : writeAll xs s₁ with ⟨r, zs, s₂⟩
        simp only [hx, hrest] at heq
        cases heq
        exact List.forall_mem_cons.mpr ⟨pursued_writeLive hx, ih hrest⟩

theorem pursued_writePending (patch : String) (hxs : ∀ x ∈ xs, x.Pursued) (s : Site) :
    ∀ y ∈ (writePending patch xs s).1, y.Pursued := by
  induction xs generalizing s with
  | nil => exact hxs
  | cons x xs ih =>
      obtain ⟨hx, hrest⟩ := List.forall_mem_cons.mp hxs
      by_cases hpending : x.pending = true
      · have hwritten := pursued_of_pending hpending s
        rcases heq : x.writeLive s with ⟨r, y, s₁⟩
        rw [heq] at hwritten
        obtain ⟨s₂, -, heq'⟩ := writePending_cons patch heq hpending xs
        rw [heq']
        exact List.forall_mem_cons.mpr ⟨hwritten, ih hrest s₂⟩
      · rw [writePending, if_neg hpending]
        exact List.forall_mem_cons.mpr ⟨hx, ih hrest s⟩

/-! ## Writing what was withdrawn -/

/-- A withdrawn setting is written without fail if it is admitted, and given up otherwise. -/
theorem writeLive_withdrawn_cases (x : Setting) (s : Site) :
    ((∃ b, (x.withdrawn.writeLive s).1 = .ok b) ∧ x.withdrawn.Admitted s ∧
        (x.withdrawn.writeLive s).2.1.Pursued) ∨
      (∃ e, (x.withdrawn.writeLive s).1 = .error e) ∧ ¬ x.withdrawn.Admitted s ∧
        ¬ (x.withdrawn.writeLive s).2.1.Pursued := by
  obtain ⟨r, y, s', m, heq, hcourse, -⟩ := writeLive_course x.withdrawn s
  have hlive : x.withdrawn.live = none := rfl
  rw [heq]
  cases r with
  | ok b =>
      refine .inl ⟨⟨b, rfl⟩, fun b a hb ha ↦ ?_, hcourse.pursued⟩
      cases hcourse with
      | unbound hnone => cases hnone.symm.trans hb
      | adrift hbinding hnowhere =>
          cases hbinding.symm.trans hb
          cases hnowhere.symm.trans ha
      | written hbinding hplace hcourse =>
          cases hbinding.symm.trans hb
          cases hplace.symm.trans ha
          rw [hlive] at hcourse
          cases hcourse with
          | placed _ hback haddress hafter hfit =>
              rw [← Width.length_encode b.width x.withdrawn.value, ← hback.admits_iff, ← haddress,
                ← hafter, ← UndoRecord.length_eq]
              exact hfit.admits
  | error e =>
      cases hcourse with
      | @failed b a _ _ _ hbinding hplace hcourse =>
          rw [hlive] at hcourse
          cases hcourse with
          | unplaced _ _ hrefused =>
              rw [Width.length_encode] at hrefused
              refine .inr ⟨⟨_, rfl⟩, fun hadmitted ↦ hrefused (hadmitted b a hbinding hplace), ?_⟩
              intro hpursued
              rcases hpursued b hbinding with hpending | ⟨r, hr, -⟩
              · cases hpending
              · cases hr

theorem pursued_writeAll_iff (xs : List Setting) (s : Site) :
    (∀ y ∈ (writeAll (xs.map withdrawn) s).2.1, y.Pursued) ↔
      AdmittedEach (xs.map withdrawn) s := by
  induction xs generalizing s with
  | nil => exact iff_of_true (List.forall_mem_nil _) trivial
  | cons x xs ih =>
      have hcases := writeLive_withdrawn_cases x s
      rcases heq : x.withdrawn.writeLive s with ⟨r, y, s₁⟩
      rw [heq] at hcases
      rw [List.map_cons, writeAll, AdmittedEach, heq]
      rcases hcases with ⟨⟨b, rfl⟩, hadmitted, hpursued⟩ | ⟨⟨e, rfl⟩, hadmitted, hpursued⟩
      · exact List.forall_mem_cons.trans (and_congr (iff_of_true hpursued hadmitted) (ih s₁))
      · refine iff_of_false (fun hall ↦ ?_) fun heach ↦ hadmitted heach.1
        exact hpursued (hall y List.mem_cons_self)

theorem pursued_writeAgain_iff (xs : List Setting) (s : Site) :
    (∀ y ∈ (writeAgain (xs.map withdrawn) s).1, y.Pursued) ↔
      AdmittedEach (xs.map withdrawn) s := by
  induction xs generalizing s with
  | nil => exact iff_of_true (List.forall_mem_nil _) trivial
  | cons x xs ih =>
      have hcases := writeLive_withdrawn_cases x s
      rcases heq : x.withdrawn.writeLive s with ⟨r, y, s₁⟩
      rw [heq] at hcases
      rw [List.map_cons, AdmittedEach, heq]
      rcases hcases with ⟨⟨b, rfl⟩, hadmitted, hpursued⟩ | ⟨⟨e, rfl⟩, hadmitted, hpursued⟩
      · rw [writeAgain, heq]
        exact List.forall_mem_cons.trans (and_congr (iff_of_true hpursued hadmitted) (ih s₁))
      · obtain ⟨s₂, -, hagain⟩ := writeAgain_cons heq (xs.map withdrawn)
        rw [hagain]
        refine iff_of_false (fun hall ↦ ?_) fun heach ↦ hadmitted heach.1
        exact hpursued (hall y List.mem_cons_self)

/-! ## Restoring -/

/-- Restoring in order goes to the end, or to the first setting whose write is not in place. -/
theorem restores_or_stops (xs : List Setting) (m : Memory) :
    (∃ m', Rewrites m ((records xs).map UndoRecord.inverse) m') ∨
      ∃ front x back r m', xs = front ++ x :: back ∧
        Rewrites m ((records front).map UndoRecord.inverse) m' ∧ x.live = some r ∧
          ¬ r.inverse.Fits m' := by
  induction xs generalizing m with
  | nil => exact .inl ⟨m, .nil m⟩
  | cons x xs ih =>
      have hgo {m₁ : Memory} (hx : Rewrites m (x.live.toList.map UndoRecord.inverse) m₁) :
          (∃ m', Rewrites m ((records (x :: xs)).map UndoRecord.inverse) m') ∨
            ∃ front z back r m', x :: xs = front ++ z :: back ∧
              Rewrites m ((records front).map UndoRecord.inverse) m' ∧ z.live = some r ∧
                ¬ r.inverse.Fits m' := by
        rcases ih m₁ with ⟨m', hw⟩ | ⟨front, z, back, r, m', rfl, hw, hlive, hstays⟩
        · rw [records_cons, List.map_append]
          exact .inl ⟨m', hx.append hw⟩
        · refine .inr ⟨x :: front, z, back, r, m', rfl, ?_, hlive, hstays⟩
          rw [records_cons, List.map_append]
          exact hx.append hw
      cases hlive : x.live with
      | none =>
          have hstart : Rewrites m (x.live.toList.map UndoRecord.inverse) m := by
            rw [hlive]
            exact .nil m
          exact hgo hstart
      | some r =>
          by_cases hfit : r.inverse.Fits m
          · apply hgo
            rw [hlive]
            exact .single hfit
          · exact .inr ⟨[], x, xs, r, m, rfl, .nil m, hlive, hfit⟩

/-- The setting at which restoring stops is not waiting any more, and those before it are written
again. -/
theorem restoreEach_stops {front : List Setting} {r : UndoRecord} (done back : List Setting)
    (hw : Rewrites s.host.memory ((records front).map UndoRecord.inverse) m)
    (hlive : x.live = some r) (hstays : ¬ r.inverse.Fits m) :
    ∃ e ys s', restoreEach done (front ++ x :: back) s =
        (.error e, ys ++ { x with pending := false } :: back, s') ∧
      (ys, s') = writeAgain (done.reverse ++ front.map withdrawn)
        { s with host := s.host.withMemory m } := by
  induction front generalizing done s with
  | nil =>
      cases hw
      obtain ⟨e, he⟩ := UndoRecord.apply_eq_error hstays
      refine ⟨.write x.name e, (writeAgain done.reverse s).1, (writeAgain done.reverse s).2, ?_, ?_⟩
      · simp only [List.nil_append, restoreEach, restoreLive, hlive, UndoRecord.restore_eq, he]
      · rw [List.map_nil, List.append_nil]
        rfl
  | cons z front ih =>
      have hdone : done.reverse ++ (z :: front).map withdrawn =
          (z.withdrawn :: done).reverse ++ front.map withdrawn := by
        simp
      rw [records_cons] at hw
      rw [hdone, List.cons_append, restoreEach]
      cases hz : z.live with
      | none =>
          rw [hz] at hw
          rw [restoreLive_of_unwritten hz]
          exact ih _ hw
      | some q =>
          rw [hz] at hw
          cases hw with
          | cons hfit hrest =>
              rw [restoreLive_eq_ok hz hfit]
              exact ih (s := { s with host := s.host.withMemory (q.inverse.onto s.host.memory) })
                _ hrest

end Setting

end HotPatch
