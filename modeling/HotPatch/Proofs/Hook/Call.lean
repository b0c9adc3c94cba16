import HotPatch.Hook.Basic
import HotPatch.Proofs.Hook.Preparing
import HotPatch.Proofs.Intact

/-!
# Calling a hook

A hook that is not scripted is put in place by applying one record and taken out of place by
restoring it. Everything else that it does keeps to the pool.
-/

namespace HotPatch

open Host

def HookPlan.Real : HookPlan → Prop
  | .slot .. | .inline .. => True
  | .scripted _ => False

namespace Hook

variable {k : Hook} {r : UndoRecord} {h : Host}

/-- Not of a user's own making. -/
def Real : Hook → Prop
  | .slot _ | .inline _ => True
  | .scripted _ => False

def record? : Hook → Option UndoRecord
  | .slot k => k.stage.work?
  | .inline k => k.stage.work?.map (·.record)
  | .scripted _ => none

structure Idle (k : Hook) : Prop where
  real : k.Real
  detached : k.isAttached = false

structure Ready (k : Hook) (r : UndoRecord) : Prop extends Idle k where
  record : k.record? = some r

structure InPlace (k : Hook) (r : UndoRecord) : Prop where
  real : k.Real
  attached : k.isAttached = true
  record : k.record? = some r

/-- A hook that is not of a user's own making is in place by a record, or it is not in place. -/
theorem Real.idle_or_inPlace (hk : k.Real) : k.Idle ∨ ∃ r, k.InPlace r := by
  cases k with
  | slot k =>
      obtain ⟨name, slot, detour, passage, stage⟩ := k
      cases stage with
      | fresh => exact .inl ⟨hk, rfl⟩
      | ready work => exact .inl ⟨hk, rfl⟩
      | active work => exact .inr ⟨work, hk, rfl, rfl⟩
  | inline k =>
      obtain ⟨name, target, detour, passage, stage⟩ := k
      cases stage with
      | fresh => exact .inl ⟨hk, rfl⟩
      | ready work => exact .inl ⟨hk, rfl⟩
      | active work => exact .inr ⟨work.record, hk, rfl, rfl⟩
  | scripted k => exact hk.elim

/-! ## Preparing -/

/-- Filling a slot that was lent for stolen instructions. -/
theorem fill_intact (hs : h.pool.Sound) {j : InlineHook} {block : List Code.Instruction}
    (hsteal : j.steal h = .ok block) {slot : Trampoline.Slot} {h₁ : Host}
    (hlent : h.allocate j.target (Prologue.room block) = (some slot, h₁))
    {o : Except HookError Redirect × Host} (hf : j.Filling block slot h₁ o) : Intact h o.2 := by
  obtain ⟨halloc, hslot⟩ := allocate_intact hs (InlineHook.room_le hsteal) j.target
  rw [hlent] at halloc hslot
  have hin := (hslot slot rfl).2
  cases hf with
  | unwritten => exact halloc
  | unread hroom => exact halloc.trans (intact_fill hroom hin)
  | filled _ hroom => exact halloc.trans (intact_fill hroom hin)

theorem prepareInline_intact (hs : h.pool.Sound) {j : InlineHook}
    {o : Except HookError Unit × InlineHook × Host} (hp : j.Preparing h o) :
    Intact h o.2.2 ∧ o.2.1.stage.isActive = j.stage.isActive := by
  cases hp with
  | done => exact ⟨.refl h, rfl⟩
  | unstolen => exact ⟨.refl h, rfl⟩
  | unlent _ hsteal hnone =>
      obtain ⟨halloc, -⟩ := allocate_intact hs (InlineHook.room_le hsteal) j.target
      rw [hnone] at halloc
      exact ⟨halloc, rfl⟩
  | unfilled _ hsteal hlent hfill =>
      exact ⟨(fill_intact hs hsteal hlent hfill).trans (quiet_free ..).intact, rfl⟩
  | prepared hfresh hsteal hlent hfill =>
      refine ⟨(fill_intact hs hsteal hlent hfill).trans (quiet_note ..).intact, ?_⟩
      rw [hfresh]
      rfl

/-- Preparing writes to nothing but the pool and puts nothing in place. -/
theorem Idle.prepare (hk : k.Idle) (hs : h.pool.Sound) :
    (k.prepare h).2.1.Idle ∧ Intact h (k.prepare h).2.2 := by
  cases k with
  | slot k =>
      have hidle : k.stage.isActive = false := hk.detached
      simp only [Hook.prepare, call, SlotHook.prepare]
      split
      · split
        · exact ⟨⟨trivial, rfl⟩, .refl h⟩
        · exact ⟨hk, .refl h⟩
      · exact ⟨hk, .refl h⟩
      · exact ⟨hk, .refl h⟩
  | inline k =>
      obtain ⟨hintact, hstage⟩ := prepareInline_intact hs (k.preparing h)
      exact ⟨⟨trivial, hstage.trans hk.detached⟩, hintact⟩
  | scripted k => exact hk.real.elim

/-! ## Attaching and detaching -/

/-- A prepared hook is attached by one write if memory holds what its record replaces. -/
theorem Ready.attach (hk : k.Ready r) (hfit : r.Fits h.memory) :
    ∃ k' h', k.attach h = (.ok (), k', h') ∧ k'.InPlace r ∧
      Calm (h.withMemory (r.onto h.memory)) h' := by
  cases k with
  | slot k =>
      obtain ⟨name, slot, detour, passage, stage⟩ := k
      obtain ⟨⟨-, hidle⟩, hrecord⟩ := hk
      cases stage with
      | fresh => cases hrecord
      | active work => cases hidle
      | ready work =>
          cases hrecord
          refine ⟨.slot ⟨name, slot, detour, passage, .active r⟩,
            (h.setPassage passage (ofLittleEndian r.before)).withMemory (r.onto h.memory), ?_,
            ⟨trivial, rfl, rfl⟩, .of_eq rfl rfl rfl rfl⟩
          simp only [Hook.attach, call, SlotHook.attach,
            UndoRecord.applyQuietly_eq_ok (h := h.setPassage passage _) hfit]
          rfl
  | inline k =>
      obtain ⟨name, target, detour, passage, stage⟩ := k
      obtain ⟨⟨-, hidle⟩, hrecord⟩ := hk
      cases stage with
      | fresh => cases hrecord
      | active work => cases hidle
      | ready work =>
          cases hrecord
          refine ⟨.inline ⟨name, target, detour, passage, .active { work with published := true }⟩,
            (h.publish passage work.trampoline).withMemory (work.record.onto h.memory), ?_,
            ⟨trivial, rfl, rfl⟩, .of_eq rfl rfl rfl rfl⟩
          simp only [Hook.attach, call, InlineHook.attach,
            UndoRecord.applyQuietly_eq_ok (h := h.publish passage work.trampoline) hfit]
          rfl
  | scripted k => exact hk.real.elim

/-- A prepared hook is not prepared again. -/
theorem Ready.prepare (hk : k.Ready r) (h : Host) : k.prepare h = (.ok (), k, h) := by
  cases k with
  | slot k =>
      obtain ⟨name, slot, detour, passage, stage⟩ := k
      cases stage with
      | fresh => cases hk.record
      | ready work => rfl
      | active work => rfl
  | inline k =>
      obtain ⟨name, target, detour, passage, stage⟩ := k
      cases stage with
      | fresh => cases hk.record
      | ready work => rfl
      | active work => rfl
  | scripted k => exact hk.real.elim

/-- A hook that is in place is neither prepared nor attached again. -/
theorem InPlace.call_ne_detach (hk : k.InPlace r) {c : HookCall} (hc : c ≠ .detach) (h : Host) :
    k.call c h = (.ok (), k, h) := by
  cases k with
  | slot k =>
      obtain ⟨name, slot, detour, passage, stage⟩ := k
      cases stage with
      | fresh => cases hk.attached
      | ready work => cases hk.attached
      | active work =>
          cases c with
          | prepare => rfl
          | attach => rfl
          | detach => exact absurd rfl hc
  | inline k =>
      obtain ⟨name, target, detour, passage, stage⟩ := k
      cases stage with
      | fresh => cases hk.attached
      | ready work => cases hk.attached
      | active work =>
          cases c with
          | prepare => rfl
          | attach => rfl
          | detach => exact absurd rfl hc
  | scripted k => exact hk.real.elim

/-- A hook is refused if memory does not hold what its record replaces, and nothing is written. -/
theorem Idle.attach_of_not_fits (hk : k.Idle)
    (hnot : ∀ r, k.record? = some r → ¬ r.Fits h.memory) :
    ∃ e k' h', k.attach h = (.error e, k', h') ∧ k'.Idle ∧ k'.record? = k.record? ∧
      Quiet h h' := by
  cases k with
  | slot k =>
      obtain ⟨name, slot, detour, passage, stage⟩ := k
      cases stage with
      | fresh => exact ⟨_, _, _, rfl, hk, rfl, .refl h⟩
      | active work => cases hk.detached
      | ready r =>
          obtain ⟨e, he⟩ := UndoRecord.applyQuietly_eq_error
            (h := h.setPassage passage (ofLittleEndian r.before)) (hnot r rfl)
          refine ⟨.memory e, .slot ⟨name, slot, detour, passage, .ready r⟩,
            h.setPassage passage (ofLittleEndian r.before), ?_, hk, rfl, .of_eq rfl rfl rfl⟩
          simp only [Hook.attach, call, SlotHook.attach, he]
  | inline k =>
      obtain ⟨name, target, detour, passage, stage⟩ := k
      cases stage with
      | fresh => exact ⟨_, _, _, rfl, hk, rfl, .refl h⟩
      | active work => cases hk.detached
      | ready work =>
          obtain ⟨e, he⟩ := UndoRecord.applyQuietly_eq_error
            (h := h.publish passage work.trampoline) (hnot work.record rfl)
          refine ⟨.memory e,
            .inline ⟨name, target, detour, passage, .ready { work with published := true }⟩,
            (h.publish passage work.trampoline).setPassage passage target, ?_,
            ⟨trivial, rfl⟩, rfl, .of_eq rfl rfl rfl⟩
          simp only [Hook.attach, call, InlineHook.attach, he]
  | scripted k => exact hk.real.elim

/-- A hook whose bytes are still in place is taken out of place. -/
theorem InPlace.detach (hk : k.InPlace r) (hfit : r.inverse.Fits h.memory) :
    ∃ k' h', k.detach h = (.ok (), k', h') ∧ k'.Ready r ∧
      Calm (h.withMemory (r.inverse.onto h.memory)) h' := by
  cases k with
  | slot k =>
      obtain ⟨name, slot, detour, passage, stage⟩ := k
      obtain ⟨-, hattached, hrecord⟩ := hk
      cases stage with
      | fresh => cases hattached
      | ready work => cases hattached
      | active work =>
          cases hrecord
          refine ⟨.slot ⟨name, slot, detour, passage, .ready r⟩,
            h.withMemory (r.inverse.onto h.memory), ?_, ⟨⟨trivial, rfl⟩, rfl⟩, .refl _⟩
          simp only [Hook.detach, call, SlotHook.detach, UndoRecord.restoreQuietly_eq,
            UndoRecord.applyQuietly_eq_ok hfit]
  | inline k =>
      obtain ⟨name, target, detour, passage, stage⟩ := k
      obtain ⟨-, hattached, hrecord⟩ := hk
      cases stage with
      | fresh => cases hattached
      | ready work => cases hattached
      | active work =>
          cases hrecord
          refine ⟨.inline ⟨name, target, detour, passage, .ready work⟩,
            (h.withMemory (work.record.inverse.onto h.memory)).setPassage passage target, ?_,
            ⟨⟨trivial, rfl⟩, rfl⟩, .of_eq rfl rfl rfl rfl⟩
          simp only [Hook.detach, call, InlineHook.detach, UndoRecord.restoreQuietly_eq,
            UndoRecord.applyQuietly_eq_ok hfit]
  | scripted k => exact hk.real.elim

theorem Idle.detach (hk : k.Idle) (h : Host) : k.detach h = (.ok (), k, h) := by
  cases k with
  | slot k =>
      obtain ⟨name, slot, detour, passage, stage⟩ := k
      cases stage with
      | fresh => rfl
      | ready work => rfl
      | active work => cases hk.detached
  | inline k =>
      obtain ⟨name, target, detour, passage, stage⟩ := k
      cases stage with
      | fresh => rfl
      | ready work => rfl
      | active work => cases hk.detached
  | scripted k => exact hk.real.elim

/-- A hook whose bytes are not in place any more stays attached. -/
theorem InPlace.detach_of_not_fits (hk : k.InPlace r) (hnot : ¬ r.inverse.Fits h.memory) :
    ∃ e, k.detach h = (.error e, k, h) := by
  obtain ⟨e, he⟩ := UndoRecord.applyQuietly_eq_error hnot
  refine ⟨.memory e, ?_⟩
  cases k with
  | slot k =>
      obtain ⟨name, slot, detour, passage, stage⟩ := k
      obtain ⟨-, hattached, hrecord⟩ := hk
      cases stage with
      | fresh => cases hattached
      | ready work => cases hattached
      | active work =>
          cases hrecord
          simp only [Hook.detach, call, SlotHook.detach, UndoRecord.restoreQuietly_eq, he]
  | inline k =>
      obtain ⟨name, target, detour, passage, stage⟩ := k
      obtain ⟨-, hattached, hrecord⟩ := hk
      cases stage with
      | fresh => cases hattached
      | ready work => cases hattached
      | active work =>
          cases hrecord
          simp only [Hook.detach, call, InlineHook.detach, UndoRecord.restoreQuietly_eq, he]
  | scripted k => exact hk.real.elim

/-! ## The end of a hook -/

theorem Idle.release (hk : k.Idle) : Quiet h (k.release h) := by
  cases k with
  | slot k =>
      rw [Hook.release, detachLast, if_neg (by simp [hk.detached])]
      exact .refl h
  | inline k =>
      rw [Hook.release, detachLast, if_neg (by simp [hk.detached])]
      simp only [InlineHook.discard]
      split
      · split
        · exact .refl h
        · exact quiet_free h _
      · exact .refl h
  | scripted k => exact hk.real.elim

theorem releaseAll_quiet {ks : List Hook} (hks : ∀ k ∈ ks, k.Idle) :
    Quiet h (releaseAll ks h) := by
  induction ks generalizing h with
  | nil => exact .refl h
  | cons k ks ih =>
      have hfirst : Quiet h (k.release h) := (hks k (List.mem_cons_self ..)).release
      exact hfirst.trans (ih fun k' hk' ↦ hks k' (List.mem_cons_of_mem k hk'))

/-! ## Making hooks -/

theorem ofPlans_idle {plans : List HookPlan} (hreal : ∀ p ∈ plans, p.Real) :
    (∀ k ∈ (ofPlans plans h).1, k.Idle) ∧ Quiet h (ofPlans plans h).2 := by
  induction plans generalizing h with
  | nil => exact ⟨fun k hk ↦ (nomatch hk), .refl h⟩
  | cons p plans ih =>
      have hp := hreal p (List.mem_cons_self ..)
      have hrest : ∀ q ∈ plans, q.Real := fun q hq ↦ hreal q (List.mem_cons_of_mem p hq)
      cases p with
      | slot name pointer detour passage =>
          obtain ⟨hidle, hquiet⟩ := ih (h := h) hrest
          refine ⟨fun k hk ↦ ?_, hquiet⟩
          rcases List.mem_cons.mp hk with rfl | hk
          · exact ⟨trivial, rfl⟩
          · exact hidle k hk
      | inline name target detour passage =>
          obtain ⟨hidle, hquiet⟩ := ih (h := h.setPassage passage target) hrest
          have hpassage : Quiet h (h.setPassage passage target) := .of_eq rfl rfl rfl
          refine ⟨fun k hk ↦ ?_, hpassage.trans hquiet⟩
          rcases List.mem_cons.mp hk with rfl | hk
          · exact ⟨trivial, rfl⟩
          · exact hidle k hk
      | scripted k => exact hp.elim

end Hook

end HotPatch
