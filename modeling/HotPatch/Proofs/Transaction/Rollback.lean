import HotPatch.Proofs.Transaction.Basic

/-!
# Undoing that breaks off

A rollback that cannot restore one of its records has restored those after it. They still fit, so
all of them are applied again, and nothing remains of the attempt. The same holds for writing again
after a rollback, with the records before the one that cannot be applied.
-/

namespace HotPatch

variable {m m' : Memory} {r : UndoRecord} {rs done front back : List UndoRecord}

namespace Rewrites

/-- If not all records can be applied, there is a first one that cannot. -/
theorem exists_not_fits (hnot : ¬ ∃ m', Rewrites m rs m') :
    ∃ front r back m', rs = front ++ r :: back ∧ Rewrites m front m' ∧ ¬ r.Fits m' := by
  induction rs generalizing m with
  | nil => exact absurd ⟨m, .nil m⟩ hnot
  | cons r rs ih =>
      by_cases hfit : r.Fits m
      · have hrest : ¬ ∃ m', Rewrites (r.onto m) rs m' := fun hw ↦
          hnot (exists_cons_iff.mpr ⟨hfit, hw⟩)
        obtain ⟨front, q, back, m', heq, hfront, hstuck⟩ := ih hrest
        exact ⟨r :: front, q, back, m', by rw [heq, List.cons_append], .cons hfit hfront, hstuck⟩
      · exact ⟨[], r, rs, m, rfl, .nil m, hfit⟩

end Rewrites

namespace Transaction

variable {t : Transaction} {h : Host}

/-! ## Passing over the records that fit -/

theorem restoreEach_append (hw : Rewrites h.memory (front.map UndoRecord.inverse) m)
    (back done : List UndoRecord) :
    restoreEach (front ++ back) done h =
      restoreEach back (front.reverse ++ done) (h.withMemory m) := by
  induction front generalizing done h with
  | nil =>
      cases hw
      rfl
  | cons r front ih =>
      cases hw with
      | cons hfit hrest =>
          rw [List.cons_append, restoreEach, UndoRecord.restore_eq, UndoRecord.apply_eq_ok hfit,
            List.reverse_cons, List.append_assoc]
          exact ih hrest (r :: done)

theorem applyEach_append (hw : Rewrites h.memory front m) (back done : List UndoRecord) :
    applyEach (front ++ back) done h =
      applyEach back (front.reverse ++ done) (h.withMemory m) := by
  induction front generalizing done h with
  | nil =>
      cases hw
      rfl
  | cons r front ih =>
      cases hw with
      | cons hfit hrest =>
          rw [List.cons_append, applyEach, UndoRecord.apply_eq_ok hfit, List.reverse_cons,
            List.append_assoc]
          exact ih hrest (r :: done)

theorem restoreEach_eq_ok (hw : Rewrites h.memory (rs.map UndoRecord.inverse) m) :
    restoreEach rs done h = (.ok (), h.withMemory m) := by
  rw [← List.append_nil rs, restoreEach_append hw]
  rfl

theorem applyEach_eq_ok (hw : Rewrites h.memory rs m) :
    applyEach rs done h = (.ok (), h.withMemory m) := by
  rw [← List.append_nil rs, applyEach_append hw]
  rfl

/-! ## Turning round -/

/-- A restoring that fails stops at a record and turns round there: the records that it restored on
the way can all be applied again, which leads back to where it started. -/
theorem restoreEach_eq_error
    (hnot : ¬ ∃ m, Rewrites h.memory (rs.map UndoRecord.inverse) m) :
    ∃ e front r back h', rs = front ++ r :: back ∧ restoreEach rs [] h = (.error e, h) ∧
      restoreEach front [] h = (.ok (), h') ∧ r.restore h' = (.error e, h') ∧
      applyEach front.reverse [] h' = (.ok (), h) := by
  obtain ⟨front', q, back', m, hrs, hw, hstuck⟩ := Rewrites.exists_not_fits hnot
  obtain ⟨front, tail, rfl, rfl, htail⟩ := List.map_eq_append_iff.mp hrs
  obtain ⟨r, back, rfl, rfl, rfl⟩ := List.map_eq_cons_iff.mp htail
  obtain ⟨e, he⟩ := UndoRecord.apply_eq_error (h := h.withMemory m) hstuck
  have hagain : Rewrites m front.reverse h.memory := by
    rw [← List.reverse_reverse front] at hw
    exact Unwinds.rewrites hw
  refine ⟨e, front, r, back, h.withMemory m, rfl, ?_, restoreEach_eq_ok hw, he, ?_⟩
  · rw [restoreEach_append hw, restoreEach, UndoRecord.restore_eq, he, List.append_nil]
    exact congrArg _ (redo_eq (h := h.withMemory m) hagain)
  · exact applyEach_eq_ok (h := h.withMemory m) hagain

/-- Of records that cannot all be applied, those before the first that fails are restored again. -/
theorem applyEach_eq_error (hnot : ¬ ∃ m, Rewrites h.memory rs m) :
    ∃ e front r back h', rs = front ++ r :: back ∧ applyEach rs [] h = (.error e, h) ∧
      applyEach front [] h = (.ok (), h') ∧ r.apply h' = (.error e, h') ∧
      restoreEach front.reverse [] h' = (.ok (), h) := by
  obtain ⟨front, r, back, m, rfl, hw, hstuck⟩ := Rewrites.exists_not_fits hnot
  obtain ⟨e, he⟩ := UndoRecord.apply_eq_error (h := h.withMemory m) hstuck
  have hagain : Rewrites m (front.reverse.map UndoRecord.inverse) h.memory := hw.unwinds
  refine ⟨e, front, r, back, h.withMemory m, rfl, ?_, applyEach_eq_ok hw, he, ?_⟩
  · rw [applyEach_append hw, applyEach, he, List.append_nil]
    exact congrArg _ (undo_eq (h := h.withMemory m) hagain)
  · exact restoreEach_eq_ok (h := h.withMemory m) hagain

/-! ## The transaction as a whole -/

/-- Rolling back a transaction, whatever became of memory since its writes, either succeeds or
changes nothing at all: it restores the records after one that cannot be restored, and applies all
of these again. Writing again after a rollback that succeeded changes nothing when it fails; on
memory as the rollback left it, it succeeds and leads back to memory as it was before. -/
theorem rollback_all_or_nothing (hphase : t.phase ≠ .rolledBack) (h : Host) :
    (∃ m, Unwinds h.memory t.records m ∧
        t.rollback h = (.ok (), { t with phase := .rolledBack }, h.withMemory m) ∧
        ∀ h₁, let t₁ : Transaction := { t with phase := .rolledBack }
          (∃ m₁, t₁.reapply h₁ = (.ok (), { t with phase := .committed }, h₁.withMemory m₁) ∧
              (h₁.memory = m → m₁ = h.memory)) ∨
            ∃ e front r back h', h₁.memory ≠ m ∧ t₁.reapply h₁ = (.error e, t₁, h₁) ∧
              t.records = front ++ r :: back ∧ applyEach front [] h₁ = (.ok (), h') ∧
              r.apply h' = (.error e, h') ∧ restoreEach front.reverse [] h' = (.ok (), h₁)) ∨
      ∃ e front r back h', t.rollback h = (.error e, t, h) ∧ t.records = front ++ r :: back ∧
        restoreEach back.reverse [] h = (.ok (), h') ∧ r.restore h' = (.error e, h') ∧
        applyEach back [] h' = (.ok (), h) := by
  rw [rollback, if_neg hphase]
  by_cases hback : ∃ m, Rewrites h.memory (t.records.reverse.map UndoRecord.inverse) m
  · obtain ⟨m, hm⟩ := hback
    have hagain : Rewrites m t.records h.memory := Unwinds.rewrites hm
    refine .inl ⟨m, hm, by rw [restoreEach_eq_ok hm], fun h₁ ↦ ?_⟩
    intro t₁
    rw [reapply, if_neg (not_not_intro rfl)]
    by_cases hforth : ∃ m₁, Rewrites h₁.memory t.records m₁
    · obtain ⟨m₁, hm₁⟩ := hforth
      refine .inl ⟨m₁, by rw [applyEach_eq_ok hm₁], ?_⟩
      rintro rfl
      exact hm₁.unique hagain
    · obtain ⟨e, front, r, back, h', hrs, heq, hturn⟩ := applyEach_eq_error hforth
      refine .inr ⟨e, front, r, back, h', ?_, by rw [heq], hrs, hturn⟩
      rintro rfl
      exact hforth ⟨_, hagain⟩
  · obtain ⟨e, front, r, back, h', hrs, heq, hfront, hstuck, hturn⟩ := restoreEach_eq_error hback
    have hrecords : t.records = back.reverse ++ r :: front.reverse := by
      rw [← List.reverse_reverse t.records, hrs]
      simp
    refine .inr ⟨e, back.reverse, r, front.reverse, h', by rw [heq], hrecords, ?_, hstuck, hturn⟩
    rwa [List.reverse_reverse]

/-- Three writes, each over a part of the one before, and then the host changes byte 0: the last
write is restored and applied again. -/
theorem rollback_all_or_nothing_overlapping :
    let t : Transaction :=
      ⟨[⟨0, [0], [1], rfl⟩, ⟨0, [1, 0], [2, 2], rfl⟩, ⟨1, [2], [3], rfl⟩], .committed⟩
    let h : Host := Host.onePage.poke 0 [9, 3]
    t.phase ≠ .rolledBack ∧ (∃ e, t.rollback h = (.error e, t, h)) ∧
      ∃ h', restoreEach [⟨1, [2], [3], rfl⟩] [] h = (.ok (), h') := by
  intro t h
  have hphase : t.phase ≠ .rolledBack := by decide
  have hfails : (t.rollback h).1.toBool = false := by decide
  refine ⟨hphase, ?_, _, rfl⟩
  rcases rollback_all_or_nothing hphase h with ⟨m, -, heq, -⟩ | ⟨e, -, -, -, -, heq, -⟩
  · rw [heq] at hfails
    cases hfails
  · exact ⟨e, heq⟩

end Transaction

end HotPatch
