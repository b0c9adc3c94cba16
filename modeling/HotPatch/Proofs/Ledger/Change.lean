import HotPatch.Proofs.Ledger.Batch
import HotPatch.Proofs.Patch.Change

/-!
# The ledger of changes

Reverting changes pays what they owe. What could not be reverted or was applied again still owes it.
-/

namespace HotPatch

open Host

variable {x : Address} {v : UInt8} {own : Bool} {total d : Int} {h h' : Host}

namespace Transaction

def standing (t : Transaction) : List UndoRecord := if t.phase = .rolledBack then [] else t.records

theorem standing_of_rolledBack (t : Transaction) (hphase : t.phase = .rolledBack) :
    t.standing = [] :=
  if_pos hphase

theorem standing_of_not_rolledBack (t : Transaction) (hphase : t.phase ≠ .rolledBack) :
    t.standing = t.records :=
  if_neg hphase

end Transaction

namespace Change

variable {c : Change} {cs done : List Change} {rs : List UndoRecord}

def standing : Change → List UndoRecord
  | .writes t => t.standing
  | .hooks b => b.standing

/-- A recorded transaction is not open, and a batch that counts as detached has no hook in place. -/
def Sound (own : Bool) : Change → Prop
  | .writes t => t.phase ≠ .active
  | .hooks b => b.Sound own

def Reverted : Change → Prop
  | .writes t => t.phase = .rolledBack
  | .hooks b => b.attached = false

theorem Sound.standing_eq_nil (hc : c.Sound own) (hreverted : c.Reverted) : c.standing = [] := by
  cases c with
  | writes t => exact t.standing_of_rolledBack hreverted
  | hooks b => exact hc.detached hreverted

theorem InForce.sound (hc : c.InForce rs) : c.Sound own := by
  cases hc with
  | writes hphase => exact fun hactive ↦ nomatch hphase.symm.trans hactive
  | hooks hb =>
      obtain ⟨hreal, -⟩ := Hook.standing_of_inPlace hb.hooks
      exact ⟨fun k hk ↦ .inr (hreal k hk), fun hdetached ↦ nomatch hb.attached.symm.trans hdetached⟩

theorem InForce.standing_eq (hc : c.InForce rs) : c.standing = rs := by
  cases hc with
  | writes hphase => exact Transaction.standing_of_not_rolledBack _ (by simp [hphase])
  | hooks hb => exact (Hook.standing_of_inPlace hb.hooks).2

def owed (x : Address) (v : UInt8) (cs : List Change) : Int := debts x v (cs.flatMap standing)

@[simp] theorem owed_nil : owed x v [] = 0 := rfl

@[simp] theorem owed_cons : owed x v (c :: cs) = debts x v c.standing + owed x v cs := by
  rw [owed, List.flatMap_cons, debts_append, ← owed]

@[simp] theorem owed_append : owed x v (cs ++ done) = owed x v cs + owed x v done := by
  rw [owed, List.flatMap_append, debts_append, ← owed, ← owed]

@[simp] theorem owed_reverse (cs : List Change) : owed x v cs.reverse = owed x v cs :=
  debts_perm (cs.reverse_perm.flatMap_right _)

theorem owed_of_reverted (hcs : ∀ c ∈ cs, c.Sound own ∧ c.Reverted) : owed x v cs = 0 := by
  induction cs with
  | nil => rfl
  | cons c cs ih =>
      obtain ⟨⟨hsound, hreverted⟩, hrest⟩ := List.forall_mem_cons.mp hcs
      rw [owed_cons, hsound.standing_eq_nil hreverted, ih hrest]
      rfl

theorem Applies.balanced (ha : Applies cs h h') (hb : InBalance x v own total d h) :
    InBalance x v own total (d + owed x v cs) h' := by
  induction ha generalizing d with
  | nil hintact => exact (hb.intact hintact).congr (by simp)
  | cons hintact hc hw hquiet _ ih =>
      refine (ih ((hb.intact hintact).rewrites hw hquiet)).congr ?_
      rw [owed_cons, hc.standing_eq, Int.add_assoc]

/-- Reverting a change settles what it owes, or it is owed still. -/
theorem Sound.revert (hc : c.Sound own)
    (hb : InBalance x v own total (d + debts x v c.standing) h) :
    ∃ r c' h', c.revert h = (r, c', h') ∧ c'.Sound own ∧
      InBalance x v own total (d + debts x v c'.standing) h' ∧ (r = .ok () → c'.Reverted) := by
  cases c with
  | writes t =>
      by_cases hphase : t.phase = .rolledBack
      · rw [Change.revert, Transaction.rollback_of_rolledBack hphase]
        exact ⟨_, _, h, rfl, hc, hb, fun _ ↦ hphase⟩
      · rw [standing, t.standing_of_not_rolledBack hphase] at hb
        rw [Change.revert]
        rcases Transaction.rollback_cases hphase h with ⟨m, hu, heq⟩ | ⟨-, e, heq⟩
        · rw [heq]
          refine ⟨_, _, _, rfl, ?_, ?_, fun _ ↦ rfl⟩
          · intro hactive
            cases hactive
          · exact (hb.unwinds hu (.refl _)).congr (by simp [standing, Transaction.standing])
        · rw [heq]
          refine ⟨_, _, h, rfl, hc, ?_, ?_⟩
          · rwa [standing, t.standing_of_not_rolledBack hphase]
          · intro hr
            cases hr
  | hooks b =>
      obtain ⟨r, b', h', heq, hsound, hb', hdetached⟩ := hc.detach hb
      rw [Change.revert, heq]
      cases r with
      | ok u => exact ⟨_, _, h', rfl, hsound, hb', fun _ ↦ hdetached rfl⟩
      | error e =>
          refine ⟨_, _, h', rfl, hsound, hb', ?_⟩
          intro hr
          cases hr

theorem Sound.reapply (hc : c.Sound own)
    (hb : InBalance x v own total (d + debts x v c.standing) h) :
    ∃ r c' h', c.reapply h = (r, c', h') ∧ c'.Sound own ∧
      InBalance x v own total (d + debts x v c'.standing) h' := by
  cases c with
  | writes t =>
      by_cases hphase : t.phase = .rolledBack
      · rw [standing, t.standing_of_rolledBack hphase, debts_nil, Int.add_zero] at hb
        rw [Change.reapply]
        rcases Transaction.reapply_cases hphase h with ⟨m, hw, heq⟩ | ⟨-, e, heq⟩
        · rw [heq]
          refine ⟨_, _, _, rfl, ?_, ?_⟩
          · intro hactive
            cases hactive
          · exact (hb.rewrites hw (.refl _)).congr (by simp [standing, Transaction.standing])
        · rw [heq]
          refine ⟨_, _, h, rfl, hc, hb.congr ?_⟩
          rw [standing, t.standing_of_rolledBack hphase, debts_nil, Int.add_zero]
      · rw [Change.reapply, Transaction.reapply, if_pos hphase]
        exact ⟨_, _, h, rfl, hc, hb⟩
  | hooks b =>
      obtain ⟨r, b', h', heq, hsound, hb'⟩ := hc.attach hb
      rw [Change.reapply, heq]
      cases r with
      | ok u => exact ⟨_, _, h', rfl, hsound, hb'⟩
      | error e => exact ⟨_, _, h', rfl, hsound, hb'⟩

theorem releaseAll_quiet_of_reverted (hcs : ∀ c ∈ cs, c.Sound own ∧ c.Reverted) (h : Host) :
    Quiet h (releaseAll cs h) := by
  induction cs generalizing h with
  | nil => exact .refl h
  | cons c cs ih =>
      obtain ⟨⟨hsound, hreverted⟩, hrest⟩ := List.forall_mem_cons.mp hcs
      have hfirst : Quiet h (c.release h) := by
        cases c with
        | writes t =>
            rw [Change.release, Transaction.release_of_not_active hsound]
            exact .refl h
        | hooks b => exact hsound.release hreverted h
      exact hfirst.trans (ih hrest _)

theorem reapplyEach_cons {r : Except PatchError Unit} {c' : Change} {h₁ : Host}
    (heq : c.reapply h = (r, c', h₁)) (cs : List Change) :
    ∃ h₂, Quiet h₁ h₂ ∧
      reapplyEach (c :: cs) h = (c' :: (reapplyEach cs h₂).1, (reapplyEach cs h₂).2) := by
  cases r with
  | ok u => exact ⟨h₁, .refl h₁, by rw [reapplyEach, heq]⟩
  | error e => exact ⟨_, quiet_note .., by rw [reapplyEach, heq]⟩

theorem reapplyEach_balanced (hcs : ∀ c ∈ cs, c.Sound own)
    (hb : InBalance x v own total (d + owed x v cs) h) :
    ∃ cs' h', reapplyEach cs h = (cs', h') ∧ (∀ c ∈ cs', c.Sound own) ∧
      InBalance x v own total (d + owed x v cs') h' := by
  induction cs generalizing d h with
  | nil => exact ⟨[], h, rfl, hcs, hb⟩
  | cons c cs ih =>
      obtain ⟨hc, hrest⟩ := List.forall_mem_cons.mp hcs
      have hframe : InBalance x v own total (d + owed x v cs + debts x v c.standing) h :=
        hb.congr (by rw [owed_cons]; omega)
      obtain ⟨r, c', h₁, heq, hc', hb₁⟩ := hc.reapply hframe
      obtain ⟨h₂, hquiet, heq'⟩ := reapplyEach_cons heq cs
      have hframe' : InBalance x v own total (d + debts x v c'.standing + owed x v cs) h₂ :=
        (hb₁.quiet hquiet).congr (by omega)
      obtain ⟨cs', h₃, heach, hcs', hb₃⟩ := ih hrest hframe'
      exact ⟨c' :: cs', h₃, by rw [heq', heach], List.forall_mem_cons.mpr ⟨hc', hcs'⟩,
        hb₃.congr (by rw [owed_cons]; omega)⟩

/-- Changes that are reverted do not owe anything any more; when one cannot be, all still owe what
they put into memory. -/
theorem revertEach_balanced (hcs : ∀ c ∈ cs, c.Sound own) (hdone : ∀ c ∈ done, c.Sound own)
    (hb : InBalance x v own total (d + owed x v cs + owed x v done) h) :
    ∃ r cs' h', revertEach cs done h = (r, cs', h') ∧ (∀ c ∈ cs', c.Sound own) ∧
      InBalance x v own total (d + owed x v cs') h' ∧
      (r = .ok () → (∀ c ∈ done, c.Reverted) → ∀ c ∈ cs', c.Reverted) := by
  induction cs generalizing done h with
  | nil => exact ⟨_, done, h, rfl, hdone, hb.congr (by simp), fun _ hreverted ↦ hreverted⟩
  | cons c cs ih =>
      obtain ⟨hc, hrest⟩ := List.forall_mem_cons.mp hcs
      have hframe : InBalance x v own total
          (d + owed x v cs + owed x v done + debts x v c.standing) h :=
        hb.congr (by rw [owed_cons]; omega)
      obtain ⟨r, c', h₁, heq, hc', hb₁, hreverted⟩ := hc.revert hframe
      rw [revertEach, heq]
      cases r with
      | ok u =>
          obtain ⟨r, cs', h₂, heq', hcs', hb₂, hreverted'⟩ := ih hrest
            (List.forall_mem_cons.mpr ⟨hc', hdone⟩) (hb₁.congr (by rw [owed_cons]; omega))
          exact ⟨r, cs', h₂, heq', hcs', hb₂, fun hr hd ↦
            hreverted' hr (List.forall_mem_cons.mpr ⟨hreverted rfl, hd⟩)⟩
      | error e =>
          have hframe' : InBalance x v own total
              (d + owed x v cs + debts x v c'.standing + owed x v done) h₁ := hb₁.congr (by omega)
          obtain ⟨done', h₂, heq', hdone', hb₂⟩ := reapplyEach_balanced hdone hframe'
          refine ⟨.error e, cs.reverse ++ c' :: done', h₂, by simp only [heq'], fun q hq ↦ ?_, ?_,
            fun hr ↦ (nomatch hr)⟩
          · rcases List.mem_append.mp hq with hq | hq
            · exact hrest q (List.mem_reverse.mp hq)
            · exact List.forall_mem_cons.mpr ⟨hc', hdone'⟩ q hq
          · refine hb₂.congr ?_
            rw [owed_append, owed_cons, owed_reverse]
            omega

theorem revertAll_balanced (hcs : ∀ c ∈ cs, c.Sound own)
    (hb : InBalance x v own total (d + owed x v cs) h) :
    ∃ r cs' h', revertAll cs h = (r, cs', h') ∧ (∀ c ∈ cs', c.Sound own) ∧
      InBalance x v own total (d + owed x v cs') h' ∧ (r = .ok () → ∀ c ∈ cs', c.Reverted) := by
  have hb₀ : InBalance x v own total (d + owed x v cs.reverse + owed x v []) h :=
    hb.congr (by simp)
  have hreverse : ∀ c ∈ cs.reverse, c.Sound own := fun c hc ↦ hcs c (List.mem_reverse.mp hc)
  have hnil {P : Change → Prop} : ∀ c ∈ ([] : List Change), P c := fun _ hc ↦ (nomatch hc)
  obtain ⟨r, cs', h', heq, hcs', hb', hreverted⟩ := revertEach_balanced hreverse hnil hb₀
  exact ⟨r, cs', h', heq, hcs', hb', fun hr ↦ hreverted hr hnil⟩

end Change

end HotPatch
