import HotPatch.Patch.Lifecycle
import HotPatch.Proofs.Patch.Change
import HotPatch.Proofs.Setting.Group

/-!
# Undoing what a patch applied

If each change of a patch can be reverted from wherever the host may have got to since, then a
patch whose body fails leaves nothing behind, and one that is enabled can be uninstalled. How far
the host may have got is a parameter: not at all, or anywhere that keeps to the pool.
-/

namespace HotPatch

open Host

/-- A preorder on hosts for which quiet operations do not count. -/
structure Tolerant (K : Host → Host → Prop) : Prop where
  quiet : ∀ {h h' : Host}, Quiet h h' → K h h'
  trans : ∀ {h₁ h₂ h₃ : Host}, K h₁ h₂ → K h₂ h₃ → K h₁ h₃

variable {K : Host → Host → Prop} {h h' h₁ h₂ h₃ : Host}

theorem Tolerant.refl (hK : Tolerant K) (h : Host) : K h h := hK.quiet (.refl h)

theorem tolerant_intact : Tolerant Intact := ⟨Quiet.intact, Intact.trans⟩

namespace Change

variable {c : Change} {cs ds done : List Change}

/-! ## Reverting all changes -/

/-- From any host beyond `h'`, reverting the changes leads to one beyond `h`. -/
def Revertible (K : Host → Host → Prop) (cs : List Change) (h h' : Host) : Prop :=
  ∀ h₃, K h' h₃ → ∃ cs' h₄, revertAll cs h₃ = (.ok (), cs', h₄) ∧ (∀ c ∈ cs', c.Spent) ∧ K h h₄

theorem revertEach_cons_ok (hr : revertEach (c :: cs) done h = (.ok (), ds, h')) :
    ∃ c' h₁, c.revert h = (.ok (), c', h₁) ∧ revertEach cs (c' :: done) h₁ = (.ok (), ds, h') := by
  rw [revertEach] at hr
  rcases heq : c.revert h with ⟨r, c', h₁⟩
  rw [heq] at hr
  cases r with
  | error e => cases hr
  | ok u => exact ⟨c', h₁, rfl, hr⟩

theorem revertEach_done (hr : revertEach cs done h = (.ok (), ds, h')) (more : List Change) :
    revertEach cs (done ++ more) h = (.ok (), ds ++ more, h') := by
  induction cs generalizing done h with
  | nil =>
      cases hr
      rfl
  | cons c cs ih =>
      obtain ⟨c', h₁, heq, hrest⟩ := revertEach_cons_ok hr
      rw [revertEach, heq]
      exact ih hrest

theorem revertEach_append (hr : revertEach cs done h = (.ok (), ds, h')) (more : List Change) :
    revertEach (cs ++ more) done h = revertEach more ds h' := by
  induction cs generalizing done h with
  | nil =>
      cases hr
      rfl
  | cons c cs ih =>
      obtain ⟨c', h₁, heq, hrest⟩ := revertEach_cons_ok hr
      rw [List.cons_append, revertEach, heq]
      exact ih hrest

namespace Revertible

theorem nil (hK : K h h') (hT : Tolerant K) : Revertible K [] h h' :=
  fun h₃ hbeyond ↦ ⟨[], h₃, rfl, fun _ hc ↦ (nomatch hc), hT.trans hK hbeyond⟩

theorem append (h₁₂ : Revertible K cs h₁ h₂) (h₂₃ : Revertible K ds h₂ h₃) :
    Revertible K (cs ++ ds) h₁ h₃ := by
  intro h₄ hbeyond
  obtain ⟨ds', h₅, hds, hspent, hbeyond'⟩ := h₂₃ h₄ hbeyond
  obtain ⟨cs', h₆, hcs, hspent', hbeyond''⟩ := h₁₂ h₅ hbeyond'
  refine ⟨cs' ++ ds', h₆, ?_, fun c hc ↦ ?_, hbeyond''⟩
  · rw [revertAll, List.reverse_append, revertEach_append hds]
    exact revertEach_done hcs ds'
  · rcases List.mem_append.mp hc with hc | hc
    · exact hspent' c hc
    · exact hspent c hc

/-- One change can be reverted if its records can be restored. -/
theorem single (hT : Tolerant K) {rs : List UndoRecord} (hc : c.InForce rs)
    (hback : ∀ h₃, K h' h₃ → ∃ m, Unwinds h₃.memory rs m ∧ K h (h₃.withMemory m)) :
    Revertible K [c] h h' := by
  intro h₃ hbeyond
  obtain ⟨m, hu, hbeyond'⟩ := hback h₃ hbeyond
  rcases hc.revert h₃ with ⟨c', h₄, m', heq, hundone, hu', hcalm⟩ | ⟨hnot, -⟩
  · rw [hu'.unique hu] at hcalm
    refine ⟨[c'], h₄, ?_, fun d hd ↦ ?_, hT.trans hbeyond' (hT.quiet hcalm.toQuiet)⟩
    · simp only [revertAll, List.reverse_singleton, revertEach, heq]
    · rw [List.mem_singleton] at hd
      exact hd ▸ hundone.spent
  · exact absurd ⟨m, hu⟩ hnot

end Revertible

/-- Changes outside the pool can be reverted after any operations that keep to the pool. -/
theorem Applies.revertible (ha : Applies cs h h')
    (havoid : ∀ c ∈ cs, ∀ r ∈ c.records, r.Avoids h'.pool.Covers) :
    Revertible Intact cs h h' := by
  induction ha with
  | nil hintact => exact .nil hintact tolerant_intact
  | @cons c cs rs m h h₁ h₂ h' hintact hc hw hquiet hrest ih =>
      have hfirst : Revertible Intact [c] h h₂ := by
        refine .single tolerant_intact hc fun h₃ hbeyond ↦ ?_
        have havoid' : ∀ r ∈ rs, r.Avoids h₁.pool.Covers := by
          intro r hr x hx hin
          refine havoid c (List.mem_cons_self ..) r (hc.records_eq.symm ▸ hr) x hx ?_
          exact hrest.covers ((hquiet.covers x).mpr hin)
        obtain ⟨m', hu, hback⟩ := Intact.unwinds hw havoid' hquiet hbeyond
        exact ⟨m', hu, hintact.trans hback⟩
      exact hfirst.append (ih fun c' hc' ↦ havoid c' (List.mem_cons_of_mem c hc'))

end Change

def Setting.Restorable (K : Host → Host → Prop) (xs : List Setting) (h h' : Host) : Prop :=
  ∀ h₃, K h' h₃ → ∃ m, Rewrites h₃.memory ((records xs).map UndoRecord.inverse) m ∧
    K h (h₃.withMemory m)

theorem Setting.Unwritten.restorable {xs : List Setting} (hxs : Unwritten xs) (hK : K h h')
    (hT : Tolerant K) : Restorable K xs h h' := by
  intro h₃ hbeyond
  refine ⟨h₃.memory, ?_, hT.trans hK hbeyond⟩
  rw [hxs.records_eq]
  exact .nil _

namespace Patch

variable {p p' : Patch} {s s' : Site}

structure Clean (p : Patch) : Prop where
  disabled : p.enabled = false
  changes : p.changes = []
  settings : Setting.Unwritten p.settings

def Undoable (K : Host → Host → Prop) (p : Patch) (h h' : Host) : Prop :=
  ∀ s, K h' s.host → ∃ p' s', p.uninstall s = (true, p', s') ∧ p'.Clean ∧
    p'.metadata = p.metadata ∧ K h s'.host

theorem abandon_clean (hT : Tolerant K) (hdisabled : p.enabled = false) (hchanges : p.changes = [])
    {cs : List Change} (hr : Change.Revertible K cs h h₁)
    (hx : Setting.Restorable K p.settings h₁ s.host) (e : PatchError) :
    ∃ p' s', p.abandon cs e s = (false, p', s') ∧ p'.Clean ∧ p'.metadata = p.metadata ∧
      K h s'.host := by
  obtain ⟨m, hw, hbeyond⟩ := hx s.host (hT.refl _)
  have hrestore := Setting.restoreAll_eq_ok hw
  obtain ⟨cs', h₂, hrevert, hspent, hback⟩ := hr _ hbeyond
  unfold abandon
  rw [hrestore]
  simp only [hrevert]
  refine ⟨_, _, rfl, ⟨hdisabled, hchanges, Setting.unwritten_withdrawn _⟩, rfl,
    hT.trans hback ?_⟩
  exact hT.quiet ((quiet_note ..).trans (Change.releaseAll_quiet hspent _))

theorem farewell_quiet (p : Patch) (s : Site) : Quiet s.host (p.farewell s).host := by
  unfold farewell
  split <;> split <;> exact .of_eq rfl rfl rfl

/-- An enabled patch whose changes and settings can be undone can be uninstalled. -/
theorem undoable_of_enabled (hT : Tolerant K) (henabled : p.enabled = true)
    (hr : Change.Revertible K p.changes h h₁) (hx : Setting.Restorable K p.settings h₁ h') :
    p.Undoable K h h' := by
  intro s hbeyond
  obtain ⟨m, hw, hbeyond'⟩ := hx s.host hbeyond
  have hrestore := Setting.restoreAll_eq_ok hw
  obtain ⟨cs', h₂, hrevert, hspent, hback⟩ := hr _ hbeyond'
  have hundo : p.undo s = (.ok (), { p with
      settings := p.settings.map Setting.withdrawn
      changes := [] }, { s with host := Change.releaseAll cs' h₂ }) := by
    simp only [undo, hrestore, uninstallChanges, hrevert]
  unfold uninstall
  rw [if_neg (by simp [henabled]), hundo]
  refine ⟨_, _, rfl, ⟨rfl, rfl, Setting.unwritten_withdrawn _⟩, rfl,
    hT.trans hback (hT.quiet ?_)⟩
  have hfarewell := farewell_quiet { p with
      settings := p.settings.map Setting.withdrawn
      changes := []
      enabled := false
      lastError := none } { s with host := Change.releaseAll cs' h₂ }
  exact (Change.releaseAll_quiet hspent h₂).trans (hfarewell.trans (quiet_note ..))

/-- An attempt to install is undone when it fails and can be undone when it succeeds. -/
theorem attempt_cases (hT : Tolerant K) (hp : p.Clean) {o : Outcome} {cs : List Change}
    {s₁ : Site} (hrun : (p.body.install p.installs).run p.settings [] s = (o, cs, s₁))
    (hr : Change.Revertible K cs s.host s₁.host)
    (hx : o = .done → Setting.Restorable K (Setting.writeAll p.settings s₁).2.1 s₁.host
      (Setting.writeAll p.settings s₁).2.2.host) :
    ∃ b p' s', p.attempt s = (b, p', s') ∧ p'.metadata = p.metadata ∧
      (b = false ∧ p'.Clean ∧ K s.host s'.host ∨ b = true ∧ p'.Undoable K s.host s'.host ∧
        Quiet (Setting.writeAll p.settings s₁).2.2.host s'.host) := by
  have hclean := hp.settings.restorable (hT.refl s₁.host) hT
  have hfailed := fun e ↦ abandon_clean (p := { p with installs := p.installs + 1 }) hT hp.disabled
    hp.changes hr hclean e
  unfold attempt
  rw [hrun]
  cases o with
  | failed e =>
      obtain ⟨p', s', heq, hclean', hmetadata, hback⟩ := hfailed e
      exact ⟨false, p', s', heq, hmetadata, .inl ⟨rfl, hclean', hback⟩⟩
  | aborted message =>
      obtain ⟨p', s', heq, hclean', hmetadata, hback⟩ := hfailed (.aborted message)
      exact ⟨false, p', s', heq, hmetadata, .inl ⟨rfl, hclean', hback⟩⟩
  | done =>
      have hx' := hx rfl
      rcases hwrite : Setting.writeAll p.settings s₁ with ⟨r, xs, s₂⟩
      rw [hwrite] at hx'
      simp only [Outcome.toExcept, hwrite]
      cases r with
      | error e =>
          obtain ⟨p', s', heq, hclean', hmetadata, hback⟩ := abandon_clean
            (p := { p with installs := p.installs + 1, settings := xs }) hT hp.disabled
            hp.changes hr hx' (.setting e)
          exact ⟨false, p', s', heq, hmetadata, .inl ⟨rfl, hclean', hback⟩⟩
      | ok u =>
          refine ⟨true, _, _, rfl, rfl, .inr ⟨rfl, ?_, quiet_note ..⟩⟩
          refine undoable_of_enabled hT rfl hr fun h₃ hbeyond ↦ hx' h₃ ?_
          exact hT.trans (hT.quiet (quiet_note ..)) hbeyond

theorem clearLeftovers_of_nil (hchanges : p.changes = []) (s : Site) :
    p.clearLeftovers s = (.ok (), p, s) := by
  obtain ⟨metadata, body, installs, updates, enabled, lastError, settings, changes, touched⟩ := p
  obtain rfl : changes = [] := hchanges
  rfl

/-- Installing a clean patch is undone when it fails and can be undone when it succeeds. -/
theorem install_cases (hT : Tolerant K) (hp : p.Clean) {o : Outcome} {cs : List Change}
    {s₁ : Site} (hrun : (p.body.install p.installs).run p.settings [] s = (o, cs, s₁))
    (hr : Change.Revertible K cs s.host s₁.host)
    (hx : o = .done → Setting.Restorable K (Setting.writeAll p.settings s₁).2.1 s₁.host
      (Setting.writeAll p.settings s₁).2.2.host) :
    ∃ b p' s', p.install s = (b, p', s') ∧ p'.metadata = p.metadata ∧
      (b = false ∧ p'.Clean ∧ K s.host s'.host ∨ b = true ∧ p'.Undoable K s.host s'.host ∧
        Quiet (Setting.writeAll p.settings s₁).2.2.host s'.host) := by
  unfold install
  rw [if_neg (by simp [hp.disabled]), clearLeftovers_of_nil hp.changes]
  simp only
  split
  · exact attempt_cases hT hp hrun hr hx
  · exact ⟨_, _, _, rfl, rfl, .inl ⟨rfl, ⟨hp.disabled, hp.changes, hp.settings⟩,
      hT.quiet (quiet_note ..)⟩⟩

theorem Clean.uninstall (hp : p.Clean) (s : Site) : p.uninstall s = (true, p, s) := by
  rw [Patch.uninstall, if_pos (by simp [hp.disabled, hp.changes])]

end Patch

end HotPatch
