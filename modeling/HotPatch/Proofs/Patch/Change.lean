import HotPatch.Patch.Change
import HotPatch.Proofs.Hook.Batch
import HotPatch.Proofs.Transaction.Basic

/-!
# Changes and what they put into memory

A recorded change is in force, by certain records, or spent. Reverting and applying it again lead
from one to the other, or fail and leave memory alone.
-/

namespace HotPatch

open Host

namespace Change

variable {c : Change} {cs cs' : List Change} {h h' h₁ h₂ h₃ : Host} {rs : List UndoRecord}

inductive InForce : Change → List UndoRecord → Prop where
  | writes {t : Transaction} (hphase : t.phase = .committed) : InForce (.writes t) t.records
  | hooks {b : Batch} {rs : List UndoRecord} (hb : b.InPlace rs) : InForce (.hooks b) rs

inductive Spent : Change → Prop where
  | writes {t : Transaction} (hphase : t.phase = .rolledBack) : Spent (.writes t)
  | hooks {b : Batch} (hb : b.Idle) : Spent (.hooks b)

/-- The change was in force by these records, and can be again at once. -/
inductive Undone : Change → List UndoRecord → Prop where
  | writes {t : Transaction} (hphase : t.phase = .rolledBack) : Undone (.writes t) t.records
  | hooks {b : Batch} {rs : List UndoRecord} (hb : b.Ready rs) : Undone (.hooks b) rs

theorem Undone.spent (hc : c.Undone rs) : c.Spent := by
  cases hc with
  | writes hphase => exact .writes hphase
  | hooks hb => exact .hooks hb.idle

def records : Change → List UndoRecord
  | .writes t => if t.phase = .rolledBack then [] else t.records
  | .hooks b => if b.attached then b.hooks.filterMap Hook.record? else []

theorem filterMap_record? {ks : List Hook} (hks : List.Forall₂ Hook.InPlace ks rs) :
    ks.filterMap Hook.record? = rs := by
  induction hks with
  | nil => rfl
  | cons hk _ ih => rw [List.filterMap_cons_some hk.record, ih]

theorem InForce.records_eq (hc : c.InForce rs) : c.records = rs := by
  cases hc with
  | writes hphase => simp [records, hphase]
  | hooks hb =>
      rw [records, if_pos hb.attached]
      exact filterMap_record? hb.hooks

theorem Spent.records_eq (hc : c.Spent) : c.records = [] := by
  cases hc with
  | writes hphase => rw [records, if_pos hphase]
  | hooks hb => rw [records, if_neg (by simp [hb.detached])]

/-! ## One change -/

/-- A change in force is reverted by restoring its records, the latest first, or stays in force. -/
theorem InForce.revert (hc : c.InForce rs) (h : Host) :
    (∃ c' h' m, c.revert h = (.ok (), c', h') ∧ c'.Undone rs ∧ Unwinds h.memory rs m ∧
        Calm (h.withMemory m) h') ∨
      (¬ ∃ m, Unwinds h.memory rs m) ∧
        ∃ e c' h', c.revert h = (.error e, c', h') ∧ c'.InForce rs ∧ Calm h h' := by
  cases hc with
  | @writes t hphase =>
      have hopen : t.phase ≠ .rolledBack := by simp [hphase]
      rcases Transaction.rollback_cases hopen h with ⟨m, hu, heq⟩ | ⟨hnot, e, heq⟩
      · have hundone : Undone (.writes { t with phase := .rolledBack }) t.records := .writes rfl
        exact .inl ⟨_, _, m, by rw [revert, heq], hundone, hu, .refl _⟩
      · exact .inr ⟨hnot, _, _, _, by rw [revert, heq], .writes hphase, .refl h⟩
  | @hooks b rs hb =>
      rcases hb.detach h with
        ⟨b', h', m, heq, hready, hu, hcalm⟩ | ⟨hnot, e, b', h', heq, hb', hcalm⟩
      · exact .inl ⟨_, _, m, by rw [revert, heq], .hooks hready, hu, hcalm⟩
      · exact .inr ⟨hnot, _, _, _, by rw [revert, heq], .hooks hb', hcalm⟩

theorem Spent.revert (hc : c.Spent) (h : Host) : c.revert h = (.ok (), c, h) := by
  cases hc with
  | writes hphase => rw [Change.revert, Transaction.rollback_of_rolledBack hphase]
  | hooks hb => rw [Change.revert, hb.detach]

/-- A spent change is applied again by applying its records in order, or stays spent. -/
theorem Spent.reapply (hc : c.Spent) (hs : h.pool.Sound) :
    (∃ c' h' h₁ rs m, c.reapply h = (.ok (), c', h') ∧ c'.InForce rs ∧ Intact h h₁ ∧
        Rewrites h₁.memory rs m ∧ Quiet (h₁.withMemory m) h') ∨
      ∃ e c' h', c.reapply h = (.error e, c', h') ∧ c'.Spent ∧ Intact h h' := by
  cases hc with
  | @writes t hphase =>
      rcases Transaction.reapply_cases hphase h with ⟨m, hw, heq⟩ | ⟨-, e, heq⟩
      · exact .inl ⟨.writes { t with phase := .committed }, _, h, t.records, m,
          by rw [Change.reapply, heq], .writes rfl, .refl h, hw, .refl _⟩
      · exact .inr ⟨_, _, _, by rw [Change.reapply, heq], .writes hphase, .refl h⟩
  | @hooks b hb =>
      rcases hb.attach hs with
        ⟨b', h', h₁, rs, m, heq, hb', hintact, hw, hquiet⟩ | ⟨e, b', h', heq, hidle, hintact⟩
      · exact .inl ⟨_, _, h₁, rs, m, by rw [Change.reapply, heq], .hooks hb', hintact, hw, hquiet⟩
      · exact .inr ⟨_, _, _, by rw [Change.reapply, heq], .hooks hidle, hintact⟩

/-- A change that was just reverted is applied again by the same records. -/
theorem Undone.reapply {m : Memory} (hc : c.Undone rs) (hw : Rewrites h.memory rs m) :
    ∃ c' h', c.reapply h = (.ok (), c', h') ∧ c'.InForce rs ∧ Calm (h.withMemory m) h' := by
  cases hc with
  | @writes t hphase =>
      rcases Transaction.reapply_cases hphase h with ⟨m', hw', heq⟩ | ⟨hnot, -⟩
      · have hforce : InForce (.writes { t with phase := .committed }) t.records := .writes rfl
        refine ⟨_, _, by rw [Change.reapply, heq], hforce, ?_⟩
        rw [hw'.unique hw]
        exact .refl _
      · exact absurd ⟨m, hw⟩ hnot
  | hooks hb =>
      obtain ⟨b', h', heq, hb', hcalm⟩ := hb.attach hw
      exact ⟨_, _, by rw [Change.reapply, heq], .hooks hb', hcalm⟩

theorem InForce.reapply (hc : c.InForce rs) (h : Host) : c.reapply h = (.ok (), c, h) := by
  cases hc with
  | writes hphase => rw [Change.reapply, Transaction.reapply, if_pos (by simp [hphase])]
  | hooks hb => rw [Change.reapply, Batch.attach, if_pos hb.attached]

theorem Spent.release (hc : c.Spent) (h : Host) : Quiet h (c.release h) := by
  cases hc with
  | writes hphase =>
      rw [Change.release, Transaction.release_of_not_active (by simp [hphase])]
      exact .refl h
  | hooks hb => exact hb.release

theorem releaseAll_quiet (hcs : ∀ c ∈ cs, c.Spent) (h : Host) : Quiet h (releaseAll cs h) := by
  induction cs generalizing h with
  | nil => exact .refl h
  | cons c cs ih =>
      have hfirst := (hcs c (List.mem_cons_self ..)).release h
      exact hfirst.trans (ih (fun c' hc' ↦ hcs c' (List.mem_cons_of_mem c hc')) _)

/-! ## Several changes -/

inductive Applies : List Change → Host → Host → Prop where
  | nil {h h' : Host} (hintact : Intact h h') : Applies [] h h'
  | cons {c : Change} {cs : List Change} {rs : List UndoRecord} {m : Memory} {h h₁ h₂ h' : Host}
      (hintact : Intact h h₁) (hc : c.InForce rs) (hw : Rewrites h₁.memory rs m)
      (hquiet : Quiet (h₁.withMemory m) h₂) (hrest : Applies cs h₂ h') : Applies (c :: cs) h h'

namespace Applies

theorem refl (h : Host) : Applies [] h h := .nil (.refl h)

theorem intact_left (hi : Intact h₁ h₂) (ha : Applies cs h₂ h₃) : Applies cs h₁ h₃ := by
  cases ha with
  | nil hintact => exact .nil (hi.trans hintact)
  | cons hintact hc hw hquiet hrest => exact .cons (hi.trans hintact) hc hw hquiet hrest

theorem append (h₁₂ : Applies cs h₁ h₂) (h₂₃ : Applies cs' h₂ h₃) : Applies (cs ++ cs') h₁ h₃ := by
  induction h₁₂ with
  | nil hintact => exact h₂₃.intact_left hintact
  | cons hintact hc hw hquiet _ ih => exact .cons hintact hc hw hquiet (ih h₂₃)

theorem single {m : Memory} (hc : c.InForce rs) (hintact : Intact h h₁)
    (hw : Rewrites h₁.memory rs m) (hquiet : Quiet (h₁.withMemory m) h') : Applies [c] h h' :=
  .cons hintact hc hw hquiet (.refl h')

theorem covers (ha : Applies cs h h') {x : Address} (hx : h.pool.Covers x) : h'.pool.Covers x := by
  induction ha with
  | nil hintact => exact hintact.covers x hx
  | cons hintact _ _ hquiet _ ih => exact ih ((hquiet.covers x).mpr (hintact.covers x hx))

theorem sound (ha : Applies cs h h') (hs : h.pool.Sound) : h'.pool.Sound := by
  induction ha with
  | nil hintact => exact hintact.sound hs
  | cons hintact _ _ hquiet _ ih => exact ih (hquiet.sound (hintact.sound hs))

theorem inForce (ha : Applies cs h h') : ∀ c ∈ cs, ∃ rs, c.InForce rs := by
  induction ha with
  | nil =>
      intro c hc
      cases hc
  | @cons c cs rs _ _ _ _ _ _ hc _ _ _ ih =>
      intro c' hc'
      rcases List.mem_cons.mp hc' with rfl | hc'
      · exact ⟨rs, hc⟩
      · exact ih c' hc'

end Applies

end Change

end HotPatch
