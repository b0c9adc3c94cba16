import HotPatch.Proofs.Ledger.Patch
import HotPatch.Proofs.Matched.Setting

/-!
# Patches write evenly

Whatever the bodies of patches do, and however installing, uninstalling, updating and configuring
them ends, the writes of settings stay as long as their bindings are wide, and each write puts as
many bytes as it expects to find.
-/

namespace HotPatch

open Host

/-! ## Bodies -/

theorem Edit.run_exact (e : Edit) (t : Transaction) (h : Host) : Exact h (e.run t h).2.2 := by
  induction e generalizing t h with
  | done => exact .refl h
  | fail e => exact .refl h
  | abort message => exact .refl h
  | write w next ih =>
      have hwrite := t.perform_exact w h
      unfold Edit.run
      generalize t.perform w h = written at hwrite
      obtain ⟨r, t', h₁⟩ := written
      exact hwrite.trans (ih r t' h₁)
  | commit next ih => exact ih t.commit h
  | rollback next ih =>
      have hback := t.rollback_exact h
      unfold Edit.run
      generalize t.rollback h = restored at hback
      obtain ⟨r, t', h₁⟩ := restored
      exact hback.trans (ih r t' h₁)
  | poke a bs next ih => exact (Exact.poke h a bs).trans (ih t _)

namespace Program

theorem transact_exact (e : Edit) (cs : List Change) (h : Host) :
    Exact h (transact e cs h).2.2 := by
  have hrun := e.run_exact .empty h
  unfold transact
  generalize e.run .empty h = ran at hrun
  obtain ⟨_ | e | message, t, h₁⟩ := ran
  · exact hrun
  · have hback := t.rollback_exact h₁
    dsimp only
    generalize t.rollback h₁ = restored at hback
    obtain ⟨_ | u, t', h₂⟩ := restored
    · exact hrun.trans ((hback.noted ..).trans (t'.release_exact _))
    · exact hrun.trans (hback.trans (t'.release_exact h₂))
  · exact hrun.trans (t.release_exact h₁)

theorem hook_exact (plans : List HookPlan) (cs : List Change) (h : Host) :
    Exact h (hook plans cs h).2.2 := by
  have hmake := Hook.ofPlans_exact plans h
  unfold hook
  generalize Hook.ofPlans plans h = made at hmake
  obtain ⟨ks, h₁⟩ := made
  have hattach := ((Batch.ofHooks ks).attach_calls h₁).exact
  dsimp only
  generalize (Batch.ofHooks ks).attach h₁ = attached at hattach
  obtain ⟨r, b, h₂⟩ := attached
  have hexact := hmake.trans hattach
  dsimp only
  split
  · exact hexact
  · exact hexact.trans (b.release_exact h₂)

/-- Whatever a body does, its writes are even, as each of them is captured before it is made. -/
theorem run_exact (q : Program) (settings : List Setting) (cs : List Change) (s : Site) :
    Exact s.host (q.run settings cs s).2.2.host := by
  induction q generalizing cs s with
  | done => exact .refl _
  | fail e => exact .refl _
  | abort message => exact .refl _
  | resolve t next ih =>
      have hresolve := (s.resolve_told t).exact
      unfold Program.run
      generalize s.resolve t = resolved at hresolve
      obtain ⟨e | found, s₁⟩ := resolved
      · exact hresolve.trans (ih (.error e) cs s₁)
      · exact hresolve.trans (ih (.ok found.address) cs s₁)
  | transaction e next ih =>
      have htransact := transact_exact e cs s.host
      unfold Program.run
      generalize transact e cs s.host = done at htransact
      obtain ⟨_ | e | message, cs', h₁⟩ := done
      · exact htransact.trans (ih (.ok ()) cs' { s with host := h₁ })
      · exact htransact.trans (ih (.error e) cs' { s with host := h₁ })
      · exact htransact
  | hooks plans next ih =>
      have hhook := hook_exact plans cs s.host
      unfold Program.run
      generalize hook plans cs s.host = hooked at hhook
      obtain ⟨r, cs', h₁⟩ := hooked
      exact hhook.trans (ih r cs' { s with host := h₁ })
  | inspect next ih => exact ih _ cs s
  | report e next ih =>
      have hreport : Exact s.host (s.host.report e) := .aside rfl rfl rfl
      exact hreport.trans (ih cs { s with host := s.host.report e })
  | poke a bs next ih =>
      exact (Exact.poke s.host a bs).trans (ih cs { s with host := s.host.poke a bs })

end Program

/-! ## Patches -/

namespace Patch

variable {p : Patch}

def Matched (p : Patch) : Prop := ∀ x ∈ p.settings, x.Matched

theorem giveUp_exact (hp : p.Matched) (cs : List Change) (e : PatchError) (s : Site) :
    (p.giveUp cs e s).2.1.Matched ∧ Exact s.host (p.giveUp cs e s).2.2.host := by
  have hback := Change.revertAll_exact cs s.host
  unfold giveUp
  generalize Change.revertAll cs s.host = reverted at hback
  obtain ⟨_ | u, cs', h₁⟩ := reverted
  · exact ⟨hp, (hback.noted ..).noted ..⟩
  · exact ⟨hp, (hback.noted ..).trans (Change.releaseAll_exact cs' _)⟩

theorem abandon_exact (hp : p.Matched) (cs : List Change) (e : PatchError) (s : Site) :
    (p.abandon cs e s).2.1.Matched ∧ Exact s.host (p.abandon cs e s).2.2.host := by
  have hrestore := Setting.restoreAll_exact hp s
  rcases hrestored : Setting.restoreAll p.settings s with ⟨r, settings, s₁⟩
  rw [hrestored] at hrestore
  obtain ⟨s₂, htold, heq⟩ := abandon_eq hrestored cs e
  have hp' : ({ p with settings } : Patch).Matched := hrestore.1
  rw [heq]
  exact (giveUp_exact hp' cs e s₂).imp_right (hrestore.2.trans htold.exact).trans

theorem attempt_exact (hp : p.Matched) (s : Site) :
    (p.attempt s).2.1.Matched ∧ Exact s.host (p.attempt s).2.2.host := by
  have hrun := (p.body.install p.installs).run_exact p.settings [] s
  unfold attempt
  generalize (p.body.install p.installs).run p.settings [] s = ran at hrun
  obtain ⟨outcome, cs, s₁⟩ := ran
  dsimp only
  split
  · rename_i e _
    have hp' : ({ p with installs := p.installs + 1 } : Patch).Matched := hp
    exact (abandon_exact hp' cs e s₁).imp_right hrun.trans
  · have hwrite := Setting.writeAll_exact hp s₁
    generalize Setting.writeAll p.settings s₁ = written at hwrite
    obtain ⟨e | u, settings, s₂⟩ := written
    · have hp' : ({ p with installs := p.installs + 1, settings } : Patch).Matched := hwrite.1
      exact (abandon_exact hp' cs (.setting e) s₂).imp_right (hrun.trans hwrite.2).trans
    · exact ⟨hwrite.1, (hrun.trans hwrite.2).noted ..⟩

theorem clearLeftovers_exact (hp : p.Matched) (s : Site) :
    (p.clearLeftovers s).2.1.Matched ∧ Exact s.host (p.clearLeftovers s).2.2.host := by
  have hback := Change.revertAll_exact p.changes s.host
  unfold clearLeftovers
  generalize Change.revertAll p.changes s.host = reverted at hback
  obtain ⟨_ | u, cs, h₁⟩ := reverted
  · exact ⟨hp, hback⟩
  · exact ⟨hp, hback.trans (Change.releaseAll_exact cs h₁)⟩

def KeepsMatched {α : Type} (f : Patch → Site → α × Patch × Site) : Prop :=
  ∀ {p : Patch}, p.Matched → ∀ s, (f p s).2.1.Matched ∧ Exact s.host (f p s).2.2.host

theorem install_exact : KeepsMatched Patch.install := by
  intro p hp s
  have hclear := clearLeftovers_exact hp s
  unfold Patch.install
  split
  · exact ⟨hp, .refl _⟩
  · generalize p.clearLeftovers s = cleared at hclear
    obtain ⟨e | u, p', s₁⟩ := cleared
    · exact ⟨hclear.1, hclear.2.noted ..⟩
    · dsimp only
      split
      · exact (attempt_exact hclear.1 s₁).imp_right hclear.2.trans
      · exact ⟨hclear.1, hclear.2.noted ..⟩

theorem uninstallChanges_exact (hp : p.Matched) (s : Site) :
    (p.uninstallChanges s).2.1.Matched ∧ Exact s.host (p.uninstallChanges s).2.2.host := by
  have hback := Change.revertAll_exact p.changes s.host
  unfold uninstallChanges
  generalize Change.revertAll p.changes s.host = reverted at hback
  obtain ⟨_ | u, cs, h₁⟩ := reverted
  · dsimp only
    split
    · have hwrite := Setting.writeAll_exact hp { s with host := h₁ }
      generalize Setting.writeAll p.settings { s with host := h₁ } = written at hwrite
      obtain ⟨w | u, settings, s₂⟩ := written
      · exact ⟨hwrite.1, hback.trans (hwrite.2.noted ..)⟩
      · exact ⟨hwrite.1, hback.trans hwrite.2⟩
    · exact ⟨hp, hback⟩
  · exact ⟨hp, hback.trans (Change.releaseAll_exact cs h₁)⟩

theorem undo_exact (hp : p.Matched) (s : Site) :
    (p.undo s).2.1.Matched ∧ Exact s.host (p.undo s).2.2.host := by
  have hrestore := Setting.restoreAll_exact hp s
  unfold undo
  generalize Setting.restoreAll p.settings s = restored at hrestore
  obtain ⟨_ | u, settings, s₁⟩ := restored
  · exact hrestore
  · have hp' : ({ p with settings } : Patch).Matched := hrestore.1
    exact (uninstallChanges_exact hp' s₁).imp_right hrestore.2.trans

theorem farewell_exact (p : Patch) (s : Site) : Exact s.host (p.farewell s).host := by
  unfold farewell
  split <;> split <;> exact .aside rfl rfl rfl

theorem uninstall_exact : KeepsMatched Patch.uninstall := by
  intro p hp s
  have hundo := undo_exact hp s
  unfold Patch.uninstall
  split
  · exact ⟨hp, .refl _⟩
  · generalize p.undo s = undone at hundo
    obtain ⟨e | u, p', s₁⟩ := undone
    · exact ⟨hundo.1, hundo.2.noted ..⟩
    · exact ⟨hundo.1, hundo.2.trans ((farewell_exact _ s₁).noted ..)⟩

theorem update_exact (hp : p.Matched) (s : Site) :
    (p.update s).1.Matched ∧ Exact s.host (p.update s).2.host := by
  unfold Patch.update
  split
  · have hpending := Setting.writePending_exact p.name hp s
    generalize Setting.writePending p.name p.settings s = written at hpending
    obtain ⟨settings, s₁⟩ := written
    have hrun := (p.body.update p.updates).run_exact settings [] s₁
    dsimp only
    generalize (p.body.update p.updates).run settings [] s₁ = ran at hrun
    obtain ⟨outcome, cs, s₂⟩ := ran
    have hexact := hpending.2.trans hrun
    dsimp only
    split
    · exact ⟨hpending.1, hexact⟩
    · have hback := Change.revertAll_exact cs s₂.host
      generalize Change.revertAll cs s₂.host = reverted at hback
      obtain ⟨_ | u, cs', h₁⟩ := reverted
      · exact ⟨hpending.1, hexact.trans ((hback.noted ..).noted ..)⟩
      · exact ⟨hpending.1, hexact.trans ((hback.trans (Change.releaseAll_exact cs' h₁)).noted ..)⟩
  · exact ⟨hp, .refl _⟩

theorem setSetting_exact (name : String) (v : Setting.Value) :
    KeepsMatched fun p s ↦ p.setSetting name v s := by
  intro p hp s
  have hchange := Setting.changeFirst_exact name v p.enabled hp s
  unfold Patch.setSetting
  dsimp only
  generalize Setting.changeFirst name v p.enabled p.settings s = changed at hchange
  obtain ⟨e | w, settings, s₁⟩ := changed
  · exact hchange
  · exact ⟨hchange.1, hchange.2.noted ..⟩

theorem Matched.touch (hp : p.Matched) : p.touch.Matched := hp

theorem restoreSettings_exact (entries : List (String × Toml.Value)) (hp : p.Matched) (s : Site) :
    (p.restoreSettings entries s).1.Matched ∧
      Exact s.host (p.restoreSettings entries s).2.host := by
  induction entries generalizing p s with
  | nil => exact ⟨hp, .refl _⟩
  | cons entry entries ih =>
      obtain ⟨key, w⟩ := entry
      rw [restoreSettings]
      split
      · exact (ih hp _).imp_right (Exact.note ..).trans
      · split
        · exact (ih hp _).imp_right (Exact.note ..).trans
        · rename_i v _
          have hset : (p.setSetting key v s).2.1.Matched ∧
              Exact s.host (p.setSetting key v s).2.2.host := setSetting_exact key v hp s
          generalize p.setSetting key v s = set at hset
          obtain ⟨e | w, p', s₁⟩ := set
          · exact (ih hset.1 _).imp_right (hset.2.noted ..).trans
          · exact (ih hset.1 s₁).imp_right hset.2.trans

theorem restore_exact (saved : Section) : KeepsMatched fun p s ↦ ((), p.restore saved s) := by
  intro p hp s
  have hset := restoreSettings_exact saved.settings hp s
  unfold Patch.restore
  dsimp only
  generalize p.restoreSettings saved.settings s = set at hset
  obtain ⟨p', s₁⟩ := set
  dsimp only
  split
  · exact hset
  · exact (install_exact hset.1.touch s₁).imp_right hset.2.trans
  · exact (uninstall_exact hset.1.touch s₁).imp_right hset.2.trans

theorem release_exact (p : Patch) (s : Site) : Exact s.host (p.release s).host :=
  Change.releaseAll_exact p.changes s.host

end Patch

end HotPatch
