import HotPatch.Proofs.Patch.Configuring

/-!
# What patches keep

Whatever a patch is called on to do, it stays the patch that it was, with the settings that it had.
Only to change a setting gives one of them another value, and that is within its bounds.
-/

namespace HotPatch

namespace Patch

variable {p p₁ p' : Patch}

structure Keeps (p p' : Patch) : Prop where
  metadata : p'.metadata = p.metadata
  body : p'.body = p.body
  touched : p'.touched = p.touched
  settings : p'.settings.map Setting.withdrawn = p.settings.map Setting.withdrawn

namespace Keeps

theorem refl (p : Patch) : p.Keeps p := ⟨rfl, rfl, rfl, rfl⟩

theorem trans (h₁ : p.Keeps p₁) (h₂ : p₁.Keeps p') : p.Keeps p' :=
  ⟨h₂.metadata.trans h₁.metadata, h₂.body.trans h₁.body, h₂.touched.trans h₁.touched,
    h₂.settings.trans h₁.settings⟩

theorem of_settings {xs : List Setting}
    (hxs : xs.map Setting.withdrawn = p.settings.map Setting.withdrawn) :
    p.Keeps { p with settings := xs } := ⟨rfl, rfl, rfl, hxs⟩

end Keeps

theorem abandon_keeps (p : Patch) (changes : List Change) (e : PatchError) (s : Site) :
    p.Keeps (p.abandon changes e s).2.1 := by
  have hrestored := Setting.map_withdrawn_restoreAll p.settings s
  unfold abandon
  rcases heq : Setting.restoreAll p.settings s with ⟨r, xs, s₁⟩
  rw [heq] at hrestored
  simp only
  split
  · exact ⟨rfl, rfl, rfl, hrestored⟩
  · exact ⟨rfl, rfl, rfl, hrestored⟩

theorem attempt_keeps (p : Patch) (s : Site) : p.Keeps (p.attempt s).2.1 := by
  have hcounted : p.Keeps { p with installs := p.installs + 1 } := ⟨rfl, rfl, rfl, rfl⟩
  unfold attempt
  rcases (p.body.install p.installs).run p.settings [] s with ⟨o, cs, s₁⟩
  simp only
  split
  · exact hcounted.trans (abandon_keeps ..)
  · have hwritten := Setting.map_withdrawn_writeAll p.settings s₁
    rcases heq : Setting.writeAll p.settings s₁ with ⟨e | u, xs, s₂⟩
    all_goals rw [heq] at hwritten
    · exact (hcounted.trans (.of_settings hwritten)).trans (abandon_keeps ..)
    · exact ⟨rfl, rfl, rfl, hwritten⟩

/-- Installing changes nothing of a setting but its write and whether it waits. -/
theorem install_keeps (p : Patch) (s : Site) : p.Keeps (p.install s).2.1 := by
  unfold Patch.install clearLeftovers
  split
  · exact .refl p
  · rcases Change.revertAll p.changes s.host with ⟨e | u, cs, h⟩
    · exact ⟨rfl, rfl, rfl, rfl⟩
    · have hcleared : p.Keeps { p with changes := [] } := ⟨rfl, rfl, rfl, rfl⟩
      simp only
      split
      · exact hcleared.trans (attempt_keeps ..)
      · exact ⟨rfl, rfl, rfl, rfl⟩

theorem uninstallChanges_keeps (p : Patch) (s : Site) : p.Keeps (p.uninstallChanges s).2.1 := by
  unfold uninstallChanges
  rcases Change.revertAll p.changes s.host with ⟨e | u, cs, h⟩
  · simp only
    split
    · have hwritten := Setting.map_withdrawn_writeAll p.settings { s with host := h }
      rcases heq : Setting.writeAll p.settings { s with host := h } with ⟨e | u, xs, s₁⟩
      all_goals rw [heq] at hwritten
      · exact ⟨rfl, rfl, rfl, hwritten⟩
      · exact ⟨rfl, rfl, rfl, hwritten⟩
    · exact ⟨rfl, rfl, rfl, rfl⟩
  · exact ⟨rfl, rfl, rfl, rfl⟩

theorem undo_keeps (p : Patch) (s : Site) : p.Keeps (p.undo s).2.1 := by
  have hrestored := Setting.map_withdrawn_restoreAll p.settings s
  unfold undo
  rcases heq : Setting.restoreAll p.settings s with ⟨e | u, xs, s₁⟩
  all_goals rw [heq] at hrestored
  · exact .of_settings hrestored
  · exact (Keeps.of_settings hrestored).trans (uninstallChanges_keeps ..)

theorem uninstall_keeps (p : Patch) (s : Site) : p.Keeps (p.uninstall s).2.1 := by
  have hundone := p.undo_keeps s
  unfold Patch.uninstall
  split
  · exact .refl p
  · rcases heq : p.undo s with ⟨e | u, p₁, s₁⟩
    all_goals rw [heq] at hundone
    · exact ⟨hundone.metadata, hundone.body, hundone.touched, hundone.settings⟩
    · exact ⟨hundone.metadata, hundone.body, hundone.touched, hundone.settings⟩

/-- An update writes the settings that wait, and leaves them to themselves then. -/
theorem update_settings (p : Patch) (s : Site) :
    p.Keeps (p.update s).1 ∧ (p.update s).1.enabled = p.enabled ∧
      (p.enabled = true →
        (p.update s).1.settings = (Setting.writePending p.name p.settings s).1) := by
  unfold Patch.update
  split
  · have hwritten := Setting.map_withdrawn_writePending p.name p.settings s
    rcases heq : Setting.writePending p.name p.settings s with ⟨xs, s₁⟩
    rw [heq] at hwritten
    rcases hrun : (p.body.update p.updates).run xs [] s₁ with ⟨o, cs, s₂⟩
    simp only [hrun]
    split
    · exact ⟨⟨rfl, rfl, rfl, hwritten⟩, rfl, fun _ ↦ rfl⟩
    · split
      · exact ⟨⟨rfl, rfl, rfl, hwritten⟩, rfl, fun _ ↦ rfl⟩
      · exact ⟨⟨rfl, rfl, rfl, hwritten⟩, rfl, fun _ ↦ rfl⟩
  · rename_i hdisabled
    exact ⟨.refl p, rfl, fun henabled ↦ absurd henabled hdisabled⟩

theorem abandon_enabled (p : Patch) (cs : List Change) (e : PatchError) (s : Site) :
    (p.abandon cs e s).1 = false ∧ (p.abandon cs e s).2.1.enabled = p.enabled := by
  unfold abandon
  rcases Setting.restoreAll p.settings s with ⟨r, xs, s₁⟩
  simp only
  split
  · exact ⟨rfl, rfl⟩
  · exact ⟨rfl, rfl⟩

theorem attempt_enabled (hdisabled : p.enabled = false) (s : Site) :
    (p.attempt s).2.1.enabled = (p.attempt s).1 := by
  unfold attempt
  rcases (p.body.install p.installs).run p.settings [] s with ⟨o, cs, s₁⟩
  simp only
  split
  · rw [(abandon_enabled ..).1, (abandon_enabled ..).2]
    exact hdisabled
  · split
    · rw [(abandon_enabled ..).1, (abandon_enabled ..).2]
      exact hdisabled
    · rfl

/-- The answer to an install is whether the patch is enabled afterwards. -/
theorem install_enabled (p : Patch) (s : Site) :
    (p.install s).2.1.enabled = (p.install s).1 := by
  unfold Patch.install
  split
  · assumption
  · rename_i hdisabled
    rw [Bool.not_eq_true] at hdisabled
    unfold clearLeftovers
    rcases Change.revertAll p.changes s.host with ⟨r, cs, h⟩
    cases r with
    | error e => exact hdisabled
    | ok u =>
        simp only
        split
        · refine attempt_enabled ?_ _
          exact hdisabled
        · exact hdisabled

theorem undo_enabled (p : Patch) (s : Site) : (p.undo s).2.1.enabled = p.enabled := by
  unfold undo uninstallChanges
  split
  · rfl
  · split
    · rfl
    · simp only
      split
      · split
        · rfl
        · rfl
      · rfl

/-- The answer to an uninstall is whether the patch is disabled afterwards, if it was enabled. -/
theorem uninstall_enabled (p : Patch) (s : Site) :
    (p.uninstall s).2.1.enabled = (p.enabled && !(p.uninstall s).1) := by
  have hundone := p.undo_enabled s
  unfold Patch.uninstall
  split
  · rename_i hdisabled
    rw [Bool.and_eq_true, Bool.not_eq_true'] at hdisabled
    rw [hdisabled.1, Bool.false_and]
  · rcases heq : p.undo s with ⟨e | u, p₁, s₁⟩
    · rw [heq] at hundone
      rw [← hundone]
      exact (Bool.and_true _).symm
    · exact (Bool.and_false _).symm

/-! ## Calls -/

inductive Call where
  | install
  | uninstall
  | update
  | setSetting (name : String) (v : Setting.Value)

def Call.run : Call → Patch → Site → Patch × Site
  | .install, p, s => (p.install s).2
  | .uninstall, p, s => (p.uninstall s).2
  | .update, p, s => p.update s
  | .setSetting name v, p, s => (p.setSetting name v s).2

def InBounds (p : Patch) : Prop := ∀ x ∈ p.settings, x.InBounds

theorem InBounds.kept (hp : p.InBounds) {name : String} :
    ∀ x, Setting.named? p.settings name = some x → x.kind.clamp? x.value = some x.value := by
  intro x hx
  obtain ⟨-, front, back, hsplit, -⟩ := Setting.named?_eq_some_iff.mp hx
  apply (hp x _).value
  rw [hsplit]
  exact List.mem_append_right _ List.mem_cons_self

theorem Keeps.inBounds (hk : p.Keeps p') (hp : p.InBounds) : p'.InBounds :=
  Setting.inBounds_of_map hp hk.settings

/-- A value that is given is brought within bounds first. -/
theorem setSetting_inBounds (hp : p.InBounds) (name : String) (v : Setting.Value) (s : Site) :
    (p.setSetting name v s).2.1.InBounds := by
  cases hnamed : Setting.named? p.settings name with
  | none =>
      rw [setSetting_of_none hnamed]
      exact hp
  | some x =>
      obtain ⟨front, back, r, y, s', m, hsplit, heq, -, hcourse, -⟩ :=
        setSetting_course hnamed v s
      unfold InBounds at hp
      rw [hsplit, List.forall_mem_append, List.forall_mem_cons] at hp
      obtain ⟨hfront, hx, hback⟩ := hp
      rw [heq]
      exact List.forall_mem_append.mpr
        ⟨hfront, List.forall_mem_cons.mpr ⟨hcourse.inBounds hx, hback⟩⟩

theorem Call.run_inBounds (hp : p.InBounds) (c : Call) (s : Site) : (c.run p s).1.InBounds := by
  cases c with
  | install => exact (p.install_keeps s).inBounds hp
  | uninstall => exact (p.uninstall_keeps s).inBounds hp
  | update => exact (p.update_settings s).1.inBounds hp
  | setSetting name v => exact setSetting_inBounds hp name v s

end Patch

end HotPatch
