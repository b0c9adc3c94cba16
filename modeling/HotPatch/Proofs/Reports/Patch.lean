import HotPatch.Patch.Lifecycle
import HotPatch.Proofs.Reports.Hook

/-!
# Patches do not depend on what was reported

Bodies run, settings are written and restored, and patches are installed and uninstalled in the same
way whatever was reported before.
-/

namespace HotPatch

instance : HasLog Site := ⟨fun older s ↦ { s with host := atop older s.host }⟩

variable {older : List LogRecord} {h : Host} {s : Site}

/-! ## Changes -/

namespace Change

theorem revert_atop (c : Change) : c.revert (atop older h) = atop older (c.revert h) := by
  cases c with
  | writes t =>
      unfold revert
      dsimp only
      rw [t.rollback_atop]
      rcases t.rollback h with ⟨_ | _, _, _⟩ <;> rfl
  | hooks b =>
      unfold revert
      dsimp only
      rw [b.detach_atop]
      rcases b.detach h with ⟨_ | _, _, _⟩ <;> rfl

theorem reapply_atop (c : Change) : c.reapply (atop older h) = atop older (c.reapply h) := by
  cases c with
  | writes t =>
      unfold reapply
      dsimp only
      rw [t.reapply_atop]
      rcases t.reapply h with ⟨_ | _, _, _⟩ <;> rfl
  | hooks b =>
      unfold reapply
      dsimp only
      rw [b.attach_atop]
      rcases b.attach h with ⟨_ | _, _, _⟩ <;> rfl

theorem release_atop (c : Change) : c.release (atop older h) = atop older (c.release h) := by
  cases c with
  | writes t => exact t.release_atop
  | hooks b => exact b.release_atop

theorem releaseAll_atop (cs : List Change) :
    releaseAll cs (atop older h) = atop older (releaseAll cs h) := by
  induction cs generalizing h with
  | nil => rfl
  | cons c cs ih => rw [releaseAll, releaseAll, c.release_atop, ih]

theorem reapplyEach_atop (cs : List Change) :
    reapplyEach cs (atop older h) = atop older (reapplyEach cs h) := by
  induction cs generalizing h with
  | nil => rfl
  | cons c cs ih =>
      rw [reapplyEach, reapplyEach, c.reapply_atop]
      rcases c.reapply h with ⟨e | u, c', h₁⟩
      · rw [HasLog.atop_mk, HasLog.atop_mk]
        dsimp only
        rw [Host.note_atop, ih]
        rfl
      · rw [HasLog.atop_mk, HasLog.atop_mk]
        dsimp only
        rw [ih]
        rfl

theorem revertEach_atop (cs done : List Change) :
    revertEach cs done (atop older h) = atop older (revertEach cs done h) := by
  induction cs generalizing done h with
  | nil => rfl
  | cons c cs ih =>
      rw [revertEach, revertEach, c.revert_atop]
      rcases c.revert h with ⟨e | u, c', h₁⟩
      · rw [HasLog.atop_mk, HasLog.atop_mk]
        dsimp only
        rw [reapplyEach_atop]
        rfl
      · exact ih (c' :: done)

theorem revertAll_atop (cs : List Change) :
    revertAll cs (atop older h) = atop older (revertAll cs h) := revertEach_atop ..

end Change

/-! ## Transactions and targets -/

theorem Edit.run_atop (e : Edit) (t : Transaction) :
    e.run t (atop older h) = atop older (e.run t h) := by
  induction e generalizing t h with
  | done => rfl
  | fail e => rfl
  | abort message => rfl
  | write w next ih =>
      rw [run, run, t.perform_atop]
      exact ih _ _
  | commit next ih => exact ih _
  | rollback next ih =>
      rw [run, run, t.rollback_atop]
      exact ih _ _
  | poke a bs next ih => exact ih (h := h.poke a bs) t

theorem Resolver.resolve_atop (r : Resolver) (t : Target) :
    r.resolve t (atop older h) = atop older (r.resolve t h) := by
  unfold resolve
  rw [Host.memory_atop]
  split
  · rfl
  · split <;> rfl

namespace Site

@[simp] theorem host_atop (older : List LogRecord) (s : Site) :
    (atop older s).host = atop older s.host := rfl

@[simp] theorem note_atop (older : List LogRecord) (s : Site) (level : LogLevel)
    (message : String) : (atop older s).note level message = atop older (s.note level message) :=
  rfl

theorem resolve_atop (t : Target) : (atop older s).resolve t = atop older (s.resolve t) := by
  have hresolver : (atop older s).resolver = s.resolver := rfl
  unfold resolve
  rw [hresolver, host_atop, Resolver.resolve_atop]
  rfl

end Site

namespace SameButLog

variable {s s' : Site}

theorem site_iff : SameButLog s s' ↔ s'.resolver = s.resolver ∧ SameButLog s.host s'.host := by
  constructor
  · rintro ⟨older, older', z, rfl, rfl⟩
    exact ⟨rfl, older, older', z.host, rfl, rfl⟩
  · obtain ⟨r, h⟩ := s
    obtain ⟨r', h'⟩ := s'
    rintro ⟨rfl, older, older', z, rfl, rfl⟩
    exact ⟨older, older', ⟨r', z⟩, rfl, rfl⟩

theorem site_left (hs : SameButLog s s') (level : LogLevel) (message : String) :
    SameButLog (s.note level message) s' := by
  rw [site_iff] at hs ⊢
  exact ⟨hs.1, hs.2.note_left level message⟩

theorem site_right (hs : SameButLog s s') (level : LogLevel) (message : String) :
    SameButLog s (s'.note level message) := by
  rw [site_iff] at hs ⊢
  exact ⟨hs.1, hs.2.note_right level message⟩

end SameButLog

/-! ## Settings -/

namespace Setting

theorem Binding.locate_atop (b : Binding) : b.locate (atop older s) = atop older (b.locate s) := by
  unfold Binding.locate
  split
  · rfl
  · rfl
  · rw [Site.resolve_atop]
    rename_i t _
    rcases s.resolve t with ⟨_ | _, _⟩ <;> rfl

theorem writeAt_atop (x : Setting) (a : Address) (bytes : List UInt8) :
    x.writeAt a bytes (atop older h) = atop older (x.writeAt a bytes h) := by
  unfold writeAt
  split
  · rw [UndoRecord.make_atop]
    rcases UndoRecord.make a bytes h with ⟨_ | _, _⟩ <;> rfl
  · rename_i old _
    split
    · rw [old.retarget_atop]
      rcases old.retarget bytes h with ⟨_ | _, _⟩ <;> rfl
    · rw [old.restore_atop]
      rcases old.restore h with ⟨e | u, h₁⟩
      · rfl
      · rw [HasLog.atop_mk]
        dsimp only
        rw [UndoRecord.make_atop]
        rcases UndoRecord.make a bytes h₁ with ⟨_ | _, _⟩ <;> rfl

theorem writeLive_atop (x : Setting) :
    x.writeLive (atop older s) = atop older (x.writeLive s) := by
  unfold writeLive
  split
  · rfl
  · rename_i b _
    rw [b.locate_atop]
    rcases b.locate s with ⟨_ | a, s₁⟩
    · rw [HasLog.atop_mk]
      dsimp only
      split <;> rfl
    · rw [HasLog.atop_mk]
      dsimp only
      rw [Site.host_atop, writeAt_atop]
      rcases x.writeAt a (b.width.encode x.value) s₁.host with ⟨_ | _, _, _⟩ <;> rfl

theorem restoreLive_atop (x : Setting) :
    x.restoreLive (atop older h) = atop older (x.restoreLive h) := by
  unfold restoreLive
  split
  · rfl
  · rename_i r _
    rw [r.restore_atop]
    rcases r.restore h with ⟨_ | _, _⟩ <;> rfl

theorem writeAll_atop (xs : List Setting) :
    writeAll xs (atop older s) = atop older (writeAll xs s) := by
  induction xs generalizing s with
  | nil => rfl
  | cons x xs ih =>
      rw [writeAll, writeAll, x.writeLive_atop]
      rcases x.writeLive s with ⟨e | u, x', s₁⟩
      · rfl
      · rw [HasLog.atop_mk, HasLog.atop_mk]
        dsimp only
        rw [ih]
        rfl

theorem writeAgain_atop (xs : List Setting) :
    writeAgain xs (atop older s) = atop older (writeAgain xs s) := by
  induction xs generalizing s with
  | nil => rfl
  | cons x xs ih =>
      rw [writeAgain, writeAgain, x.writeLive_atop]
      rcases x.writeLive s with ⟨e | u, x', s₁⟩
      · rw [HasLog.atop_mk, HasLog.atop_mk]
        dsimp only
        rw [Site.note_atop, ih]
        rfl
      · rw [HasLog.atop_mk, HasLog.atop_mk]
        dsimp only
        rw [ih]
        rfl

theorem restoreEach_atop (done xs : List Setting) :
    restoreEach done xs (atop older s) = atop older (restoreEach done xs s) := by
  induction xs generalizing done s with
  | nil => rfl
  | cons x xs ih =>
      rw [restoreEach, restoreEach, Site.host_atop, x.restoreLive_atop]
      rcases x.restoreLive s.host with ⟨e | u, x', h₁⟩
      · have hagain : writeAgain done.reverse (atop older { s with host := h₁ }) =
            atop older (writeAgain done.reverse { s with host := h₁ }) := writeAgain_atop ..
        rw [HasLog.atop_mk, HasLog.atop_mk]
        exact congrArg (fun r ↦ (Except.error e, r.1 ++ x' :: xs, r.2)) hagain
      · exact ih (s := { s with host := h₁ }) (x' :: done)

theorem restoreAll_atop (xs : List Setting) :
    restoreAll xs (atop older s) = atop older (restoreAll xs s) := restoreEach_atop ..

theorem change_atop (x : Setting) (v : Value) (live : Bool) :
    change x v live (atop older s) = atop older (change x v live s) := by
  unfold change
  cases x.assign v with
  | error e => rfl
  | ok y =>
      dsimp only
      split
      · rw [y.writeLive_atop]
        rcases y.writeLive s with ⟨e | u, z, s₁⟩
        · rw [HasLog.atop_mk, HasLog.atop_mk]
          dsimp only
          split <;> rfl
        · rfl
      · rfl

theorem changeFirst_atop (name : String) (v : Value) (live : Bool) (xs : List Setting) :
    changeFirst name v live xs (atop older s) = atop older (changeFirst name v live xs s) := by
  induction xs with
  | nil => rfl
  | cons x xs ih =>
      rw [changeFirst, changeFirst]
      split
      · rw [change_atop]
        rfl
      · rw [ih]
        rfl

end Setting

/-! ## Bodies -/

namespace Program

theorem transact_atop (e : Edit) (changes : List Change) :
    transact e changes (atop older h) = atop older (transact e changes h) := by
  unfold transact
  rw [e.run_atop]
  rcases e.run .empty h with ⟨_ | e' | message, t, h₁⟩
  · rfl
  · rw [HasLog.atop_mk, HasLog.atop_mk]
    dsimp only
    rw [t.rollback_atop]
    rcases t.rollback h₁ with ⟨r | u, t', h₂⟩
    · rw [HasLog.atop_mk, HasLog.atop_mk]
      dsimp only
      rw [Host.note_atop, t'.release_atop]
      rfl
    · rw [HasLog.atop_mk, HasLog.atop_mk]
      dsimp only
      rw [t'.release_atop]
      rfl
  · rw [HasLog.atop_mk, HasLog.atop_mk]
    dsimp only
    rw [t.release_atop]
    rfl

theorem hook_atop (plans : List HookPlan) (changes : List Change) :
    hook plans changes (atop older h) = atop older (hook plans changes h) := by
  unfold hook
  rw [Hook.ofPlans_atop]
  rcases Hook.ofPlans plans h with ⟨ks, h₁⟩
  rw [HasLog.atop_mk]
  dsimp only
  rw [Batch.attach_atop]
  rcases (Batch.ofHooks ks).attach h₁ with ⟨r, b, h₂⟩
  rw [HasLog.atop_mk, HasLog.atop_mk]
  dsimp only
  rw [b.release_atop]
  split <;> rfl

/-- A body cannot see what was reported. -/
theorem run_atop (settings : List Setting) (p : Program) (changes : List Change) :
    p.run settings changes (atop older s) = atop older (p.run settings changes s) := by
  induction p generalizing changes s with
  | done => rfl
  | fail e => rfl
  | abort message => rfl
  | resolve t next ih =>
      rw [run, run, Site.resolve_atop]
      rcases s.resolve t with ⟨e | found, s₁⟩
      · exact ih _ _
      · exact ih _ _
  | transaction e next ih =>
      rw [run, run, Site.host_atop, transact_atop]
      rcases transact e changes s.host with ⟨_ | e' | message, changes', h₁⟩
      · exact ih (s := { s with host := h₁ }) _ _
      · exact ih (s := { s with host := h₁ }) _ _
      · rfl
  | hooks plans next ih =>
      rw [run, run, Site.host_atop, hook_atop]
      exact ih (s := { s with host := (hook plans changes s.host).2.2 }) _ _
  | inspect next ih => exact ih _ _
  | report e next ih => exact ih (s := { s with host := s.host.report e }) _
  | poke a bs next ih => exact ih (s := { s with host := s.host.poke a bs }) _

end Program

/-! ## Patches -/

namespace Patch

variable {p : Patch}

theorem abandon_atop (changes : List Change) (e : PatchError) :
    p.abandon changes e (atop older s) = atop older (p.abandon changes e s) := by
  unfold abandon
  rw [Setting.restoreAll_atop]
  rcases Setting.restoreAll p.settings s with ⟨e' | u, settings, s₁⟩
  · generalize hnoted : s₁.note .error
      ("Failed to restore settings of " ++ p.name ++ ": " ++ e'.message) = s₂
    rw [HasLog.atop_mk, HasLog.atop_mk]
    dsimp only
    rw [Site.note_atop, hnoted, Site.host_atop, Change.revertAll_atop]
    rcases Change.revertAll changes s₂.host with ⟨r | u, changes', h₁⟩
    · rfl
    · exact congrArg (fun h ↦ (false, _, Site.mk s₂.resolver h))
        (Change.releaseAll_atop (h := h₁.note ..) changes')
  · rw [HasLog.atop_mk, HasLog.atop_mk]
    dsimp only
    rw [Site.host_atop, Change.revertAll_atop]
    rcases Change.revertAll changes s₁.host with ⟨r | u, changes', h₁⟩
    · rfl
    · exact congrArg (fun h ↦ (false, _, Site.mk s₁.resolver h))
        (Change.releaseAll_atop (h := h₁.note ..) changes')

theorem attempt_atop : p.attempt (atop older s) = atop older (p.attempt s) := by
  unfold attempt
  rw [Program.run_atop]
  rcases (p.body.install p.installs).run p.settings [] s with ⟨outcome, changes, s₁⟩
  rw [HasLog.atop_mk, HasLog.atop_mk]
  dsimp only
  cases outcome.toExcept with
  | error e => exact abandon_atop changes e
  | ok u =>
      dsimp only
      rw [Setting.writeAll_atop]
      rcases Setting.writeAll p.settings s₁ with ⟨e | u, settings, s₂⟩
      · exact abandon_atop changes _
      · rfl

theorem clearLeftovers_atop :
    p.clearLeftovers (atop older s) = atop older (p.clearLeftovers s) := by
  unfold clearLeftovers
  rw [Site.host_atop, Change.revertAll_atop]
  rcases Change.revertAll p.changes s.host with ⟨e | u, changes, h₁⟩
  · rfl
  · rw [HasLog.atop_mk, HasLog.atop_mk]
    dsimp only
    rw [Change.releaseAll_atop]
    rfl

/-- An install goes the same way whatever was reported before. -/
theorem install_atop : p.install (atop older s) = atop older (p.install s) := by
  unfold install
  split
  · rfl
  · rw [clearLeftovers_atop]
    rcases p.clearLeftovers s with ⟨e | u, p₁, s₁⟩
    · rfl
    · have hresolver : (atop older s₁).resolver = s₁.resolver := rfl
      rw [HasLog.atop_mk, HasLog.atop_mk]
      dsimp only
      rw [hresolver, attempt_atop]
      split <;> rfl

theorem farewell_atop : p.farewell (atop older s) = atop older (p.farewell s) := by
  unfold farewell
  cases p.body.farewell with
  | none =>
      dsimp only
      split <;> rfl
  | some e =>
      dsimp only
      split <;> rfl

theorem uninstallChanges_atop :
    p.uninstallChanges (atop older s) = atop older (p.uninstallChanges s) := by
  unfold uninstallChanges
  rw [Site.host_atop, Change.revertAll_atop]
  rcases Change.revertAll p.changes s.host with ⟨e | u, changes, h₁⟩
  · have hhost : { atop older s with host := atop older h₁ } =
      atop older { s with host := h₁ } := rfl
    rw [HasLog.atop_mk, HasLog.atop_mk]
    dsimp only
    split
    · rw [hhost, Setting.writeAll_atop]
      rcases Setting.writeAll p.settings { s with host := h₁ } with ⟨_ | _, _, _⟩ <;> rfl
    · rfl
  · rw [HasLog.atop_mk, HasLog.atop_mk]
    dsimp only
    rw [Change.releaseAll_atop]
    rfl

theorem undo_atop : p.undo (atop older s) = atop older (p.undo s) := by
  unfold undo
  rw [Setting.restoreAll_atop]
  rcases Setting.restoreAll p.settings s with ⟨e | u, settings, s₁⟩
  · rfl
  · exact uninstallChanges_atop

theorem uninstall_atop : p.uninstall (atop older s) = atop older (p.uninstall s) := by
  unfold uninstall
  split
  · rfl
  · rw [undo_atop]
    rcases p.undo s with ⟨e | u, p₁, s₁⟩
    · rfl
    · rw [HasLog.atop_mk, HasLog.atop_mk]
      dsimp only
      rw [farewell_atop]
      rfl

theorem setSetting_atop (name : String) (v : Setting.Value) :
    p.setSetting name v (atop older s) = atop older (p.setSetting name v s) := by
  unfold setSetting
  rw [Setting.changeFirst_atop]
  rcases Setting.changeFirst name v p.enabled p.settings s with ⟨_ | _, _, _⟩ <;> rfl

end Patch

end HotPatch
