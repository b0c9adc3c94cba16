import HotPatch.Hook.Batch
import HotPatch.Proofs.Reports.Basic

/-!
# Hooks do not depend on what was reported

Neither single hooks nor batches look at what was reported before.
-/

namespace HotPatch

variable {older : List LogRecord} {h : Host}

namespace SlotHook

variable {k : SlotHook}

theorem prepare_atop : k.prepare (atop older h) = atop older (k.prepare h) := by
  unfold prepare
  rw [Host.memory_atop]
  split
  · split <;> rfl
  · rfl
  · rfl

theorem attach_atop : k.attach (atop older h) = atop older (k.attach h) := by
  unfold attach
  split
  · rfl
  · rfl
  · rename_i r _
    have happly : r.applyQuietly ((atop older h).setPassage k.passage (ofLittleEndian r.before)) =
        atop older (r.applyQuietly (h.setPassage k.passage (ofLittleEndian r.before))) :=
      r.applyQuietly_atop (h.setPassage k.passage (ofLittleEndian r.before))
    rw [happly]
    rcases r.applyQuietly (h.setPassage k.passage (ofLittleEndian r.before)) with ⟨_ | _, _⟩ <;>
      rfl

theorem detach_atop : k.detach (atop older h) = atop older (k.detach h) := by
  unfold detach
  split
  · rfl
  · rfl
  · rename_i r _
    rw [r.restoreQuietly_atop]
    rcases r.restoreQuietly h with ⟨_ | _, _⟩ <;> rfl

end SlotHook

namespace InlineHook

variable {k : InlineHook}

theorem fill_atop (block : List Code.Instruction) (slot : Trampoline.Slot) :
    k.fill block slot (atop older h) = atop older (k.fill block slot h) := by
  have hinstructions : (atop older h).instructions = h.instructions := rfl
  have hfill (code : List UInt8) : (atop older h).fill slot code = atop older (h.fill slot code) :=
    rfl
  unfold fill
  rw [hinstructions]
  split
  · rfl
  · split
    · rfl
    · dsimp only
      rw [hfill, Host.memory_atop]
      split <;> rfl

theorem prepare_atop : k.prepare (atop older h) = atop older (k.prepare h) := by
  have hsteal : k.steal (atop older h) = k.steal h := rfl
  unfold prepare
  split
  · rfl
  · rfl
  · rw [hsteal]
    cases k.steal h with
    | error e => rfl
    | ok block =>
        dsimp only
        rw [Host.allocate_atop]
        rcases h.allocate k.target (Prologue.room block) with ⟨_ | slot, h₁⟩
        · rfl
        · rw [HasLog.atop_mk]
          dsimp only
          rw [fill_atop]
          rcases k.fill block slot h₁ with ⟨_ | _, _⟩ <;> rfl

theorem attach_atop : k.attach (atop older h) = atop older (k.attach h) := by
  unfold attach
  split
  · rfl
  · rfl
  · rename_i work _
    have happly : work.record.applyQuietly ((atop older h).publish k.passage work.trampoline) =
        atop older (work.record.applyQuietly (h.publish k.passage work.trampoline)) :=
      work.record.applyQuietly_atop (h.publish k.passage work.trampoline)
    dsimp only
    rw [happly]
    rcases work.record.applyQuietly (h.publish k.passage work.trampoline) with ⟨_ | _, _⟩ <;> rfl

theorem detach_atop : k.detach (atop older h) = atop older (k.detach h) := by
  unfold detach
  split
  · rfl
  · rfl
  · rename_i work _
    rw [work.record.restoreQuietly_atop]
    rcases work.record.restoreQuietly h with ⟨_ | _, _⟩ <;> rfl

theorem discard_atop : k.discard (atop older h) = atop older (k.discard h) := by
  unfold discard
  split
  · split <;> rfl
  · rfl

end InlineHook

theorem ScriptedHook.call_atop (k : ScriptedHook) (c : HookCall) :
    k.call c (atop older h) = atop older (k.call c h) := by
  unfold call
  dsimp only
  cases (k.schedule c).poke with
  | none =>
      dsimp only
      split
      · rfl
      · split <;> rfl
  | some w =>
      dsimp only
      split
      · rfl
      · split <;> rfl

namespace Hook

theorem ofPlan_atop (p : HookPlan) : ofPlan p (atop older h) = atop older (ofPlan p h) := by
  cases p <;> rfl

theorem ofPlans_atop (ps : List HookPlan) :
    ofPlans ps (atop older h) = atop older (ofPlans ps h) := by
  induction ps generalizing h with
  | nil => rfl
  | cons p ps ih =>
      rw [ofPlans, ofPlans, ofPlan_atop]
      rcases ofPlan p h with ⟨k, h₁⟩
      rw [HasLog.atop_mk]
      dsimp only
      rw [ih]
      rfl

/-- What a hook does when it is called does not depend on what was reported before. -/
theorem call_atop (k : Hook) (c : HookCall) :
    k.call c (atop older h) = atop older (k.call c h) := by
  cases k with
  | slot k =>
      cases c with
      | prepare => exact congrArg (fun r ↦ (r.1, Hook.slot r.2.1, r.2.2)) k.prepare_atop
      | attach => exact congrArg (fun r ↦ (r.1, Hook.slot r.2.1, r.2.2)) k.attach_atop
      | detach => exact congrArg (fun r ↦ (r.1, Hook.slot r.2.1, r.2.2)) k.detach_atop
  | inline k =>
      cases c with
      | prepare => exact congrArg (fun r ↦ (r.1, Hook.inline r.2.1, r.2.2)) k.prepare_atop
      | attach => exact congrArg (fun r ↦ (r.1, Hook.inline r.2.1, r.2.2)) k.attach_atop
      | detach => exact congrArg (fun r ↦ (r.1, Hook.inline r.2.1, r.2.2)) k.detach_atop
  | scripted k => exact congrArg (fun r ↦ (r.1, Hook.scripted r.2.1, r.2.2)) (k.call_atop c)

theorem detachLast_atop (k : Hook) :
    k.detachLast (atop older h) = atop older (k.detachLast h) := by
  unfold detachLast
  split
  · rw [detach, call_atop, ← detach]
    rcases k.detach h with ⟨_ | _, _, _⟩ <;> rfl
  · rfl

theorem release_atop (k : Hook) : k.release (atop older h) = atop older (k.release h) := by
  cases k with
  | slot k => exact congrArg Prod.snd (detachLast_atop (.slot k))
  | inline k =>
      unfold release
      dsimp only
      rw [detachLast_atop]
      rcases (Hook.inline k).detachLast h with ⟨_ | i | _, h₁⟩
      · rfl
      · exact i.discard_atop
      · rfl
  | scripted k => rfl

theorem releaseAll_atop (ks : List Hook) :
    releaseAll ks (atop older h) = atop older (releaseAll ks h) := by
  induction ks generalizing h with
  | nil => rfl
  | cons k ks ih => rw [releaseAll, releaseAll, release_atop, ih]

end Hook

namespace Sweep

theorem unwind_atop (undo : HookCall) (done : List Numbered) :
    unwind undo done (atop older h) = atop older (unwind undo done h) := by
  induction done generalizing h with
  | nil => rfl
  | cons p done ih =>
      obtain ⟨index, k⟩ := p
      rw [unwind, unwind, k.call_atop]
      rcases k.call undo h with ⟨r, k', h₁⟩
      rw [HasLog.atop_mk, HasLog.atop_mk]
      dsimp only
      rw [ih]
      rcases unwind undo done h₁ with ⟨rest, later, h₂⟩
      cases r <;> rfl

theorem run_atop (call undo : HookCall) (done rest : List Numbered) :
    run call undo done rest (atop older h) = atop older (run call undo done rest h) := by
  induction rest generalizing done h with
  | nil => rfl
  | cons p rest ih =>
      obtain ⟨index, k⟩ := p
      rw [run, run, k.call_atop]
      rcases k.call call h with ⟨e | u, k', h₁⟩
      · rw [HasLog.atop_mk, HasLog.atop_mk]
        dsimp only
        rw [unwind_atop]
        rfl
      · exact ih _

end Sweep

namespace Batch

theorem prepareFrom_atop (index : Nat) (ks : List Hook) :
    prepareFrom index ks (atop older h) = atop older (prepareFrom index ks h) := by
  induction ks generalizing index h with
  | nil => rfl
  | cons k ks ih =>
      rw [prepareFrom, prepareFrom, Hook.prepare, k.call_atop, ← Hook.prepare]
      rcases k.prepare h with ⟨e | u, k', h₁⟩
      · rfl
      · rw [HasLog.atop_mk, HasLog.atop_mk]
        dsimp only
        rw [ih]
        rfl

theorem reportMismatch_atop (e : HookError) :
    reportMismatch e (atop older h) = atop older (reportMismatch e h) := by
  unfold reportMismatch
  rw [Host.memory_atop]
  split
  · split <;> rfl
  · rfl

theorem reportStuck_atop (stuck : HookFailure) (cause : String) :
    reportStuck stuck cause (atop older h) = atop older (reportStuck stuck cause h) :=
  congrArg (Prod.mk _) (reportMismatch_atop (h := h.note ..) stuck.source)

theorem attach_atop (b : Batch) : b.attach (atop older h) = atop older (b.attach h) := by
  unfold attach
  split
  · rfl
  · rw [prepareFrom_atop]
    rcases prepareFrom 0 b.hooks h with ⟨_ | f, hooks, h₁⟩
    · rw [HasLog.atop_mk, HasLog.atop_mk]
      dsimp only
      rw [Sweep.run_atop]
      rcases Sweep.run .attach .detach [] (number 0 hooks) h₁ with ⟨⟨swept, _ | f, stuck⟩, h₂⟩
      · rfl
      · rw [HasLog.atop_mk]
        dsimp only
        rw [reportMismatch_atop]
        cases stuck with
        | none => rfl
        | some s =>
            dsimp only
            rw [Host.note_atop, reportStuck_atop]
            rfl
    · rfl

theorem detach_atop (b : Batch) : b.detach (atop older h) = atop older (b.detach h) := by
  unfold detach
  split
  · rw [Sweep.run_atop]
    rcases Sweep.run .detach .attach [] (number 0 b.hooks).reverse h with
      ⟨⟨swept, _ | f, stuck⟩, h₁⟩
    · rfl
    · rw [HasLog.atop_mk]
      dsimp only
      rw [reportMismatch_atop]
      cases stuck with
      | none => rfl
      | some s =>
          dsimp only
          rw [Host.note_atop, reportStuck_atop]
          rfl
  · rfl

theorem release_atop (b : Batch) : b.release (atop older h) = atop older (b.release h) := by
  unfold release
  rw [detach_atop]
  rcases b.detach h with ⟨e | u, b', h₁⟩
  · exact Hook.releaseAll_atop (h := h₁.note ..) b'.hooks
  · exact Hook.releaseAll_atop b'.hooks

end Batch

end HotPatch
