import HotPatch.Proofs.Patch.Program
import HotPatch.Proofs.Patch.Reverting
import HotPatch.Proofs.Patch.Undoing
import HotPatch.Proofs.Setting.InStep

/-!
# Uninstalling is atomic

A patch that has no hooks but slots and inline hooks, and whose settings are bound apart to fixed
addresses, has all of its changes in force and, while it is enabled, all of its settings live. That
is so whatever its closures do with their transactions. Undoing it restores
the settings and reverts the changes. Wherever that breaks off, everything undone so far fits where
it was, so it is applied and written again without fail.
-/

namespace HotPatch

open Host List Setting

variable {s : Site}

structure Body.Real (b : Body) : Prop where
  install : ∀ n, (b.install n).Real
  update : ∀ n, (b.update n).Real
  settings : ∀ x ∈ b.settings, x.InStep false
  apart : Setting.Apart b.settings

theorem Change.forall₂_inForce {cs : List Change} (hcs : ∀ c ∈ cs, ∃ rs, c.InForce rs) :
    Forall₂ InForce cs (cs.map records) := by
  induction cs with
  | nil => exact .nil
  | cons c cs ih =>
      obtain ⟨⟨rs, hc⟩, hrest⟩ := forall_mem_cons.mp hcs
      exact .cons (hc.records_eq.symm ▸ hc) (ih hrest)

theorem Change.inForce_of_forall₂ {cs : List Change} {rss : List (List UndoRecord)}
    (hcs : Forall₂ InForce cs rss) : (∀ c ∈ cs, c.InForce c.records) ∧ cs.map records = rss := by
  induction hcs with
  | nil => exact ⟨fun _ hc ↦ (nomatch hc), rfl⟩
  | cons hc _ ih =>
      rw [map_cons, hc.records_eq, ih.2]
      exact ⟨forall_mem_cons.mpr ⟨hc.records_eq.symm ▸ hc, ih.1⟩, rfl⟩

namespace Patch

variable {p : Patch}

structure Steady (p : Patch) : Prop where
  install : ∀ n, (p.body.install n).Real
  update : ∀ n, (p.body.update n).Real
  changes : ∀ c ∈ p.changes, ∃ rs, c.InForce rs
  settings : ∀ x ∈ p.settings, x.InStep p.enabled
  apart : Setting.Apart p.settings

theorem Steady.ofBody {metadata : Metadata} {b : Body} (hb : b.Real) :
    (ofBody metadata b).Steady :=
  ⟨hb.install, hb.update, fun _ hc ↦ (nomatch hc), hb.settings, hb.apart⟩

theorem Steady.unwritten (hp : p.Steady) (hdisabled : p.enabled = false) :
    Setting.Unwritten p.settings :=
  fun x hx ↦ InStep.live_eq_none (hdisabled ▸ hp.settings x hx)

theorem Steady.withdrawn_eq (hp : p.Steady) (hdisabled : p.enabled = false) :
    p.settings.map Setting.withdrawn = p.settings := by
  have hoff := hp.settings
  rw [hdisabled] at hoff
  rw [map_congr_left fun x hx ↦ (hoff x hx).withdrawn_eq, map_id']

/-! ## Uninstalling -/

/-- Settings are withdrawn and can be written again, or stay as they are. -/
theorem Steady.restoreAll (hp : p.Steady) (s : Site) :
    (∃ m, Rewrites m (Setting.records p.settings) s.host.memory ∧
        Setting.restoreAll p.settings s =
          (.ok (), p.settings.map Setting.withdrawn, { s with host := s.host.withMemory m })) ∨
      ∃ e s', Setting.restoreAll p.settings s = (.error e, p.settings, s') ∧
        Calm s.host s'.host := by
  have hsettings := hp.settings
  cases henabled : p.enabled with
  | true =>
      rw [henabled] at hsettings
      exact Setting.restoreAll_cases hsettings hp.apart s
  | false =>
      have hnone := (hp.unwritten henabled).records_eq
      refine .inl ⟨s.host.memory, ?_, Setting.restoreAll_eq_ok ?_⟩
      · rw [hnone]
        exact .nil _
      · rw [hnone]
        exact .nil _

/-- Changes are undone, or stay in force while the settings are written again. -/
theorem Steady.uninstallChanges (hp : p.Steady) {m₀ : Memory}
    (hback : Rewrites s.host.memory (Setting.records p.settings) m₀) :
    let q : Patch := { p with settings := p.settings.map Setting.withdrawn }
    (∃ s', q.uninstallChanges s = (.ok (), { q with changes := [] }, s') ∧
        (s.host.pool.Sound → s'.host.pool.Sound)) ∨
      ∃ e cs s', q.uninstallChanges s = (.error e, { p with changes := cs }, s') ∧
        Forall₂ Change.InForce cs (p.changes.map Change.records) ∧
        Calm (s.host.withMemory m₀) s'.host := by
  intro q
  rcases Change.revertAll_cases (Change.forall₂_inForce hp.changes) s.host with
    ⟨cs, h₁, m, heq, hundone, -, hcalm⟩ | ⟨-, e, cs, h₁, heq, hforce, hcalm⟩
  · have hspent : ∀ c ∈ cs, c.Spent := Change.spent_of_undone hundone
    have hreleased := Change.releaseAll_quiet hspent h₁
    refine .inl ⟨{ s with host := Change.releaseAll cs h₁ }, ?_, fun hs ↦ ?_⟩
    · simp only [Patch.uninstallChanges, q, heq]
    · exact hreleased.sound (hcalm.sound hs)
  · have hmemory : h₁.memory = s.host.memory := hcalm.memory
    cases henabled : p.enabled with
    | true =>
        have hon := hp.settings
        rw [henabled] at hon
        obtain ⟨s', hwrite, hcalm'⟩ := Setting.writeAll_withdrawn (s := { s with host := h₁ }) hon
          (hmemory ▸ hback)
        refine .inr ⟨e, cs, s', ?_, hforce, (hcalm.withMemory m₀).trans hcalm'⟩
        simp only [Patch.uninstallChanges, q, heq, henabled, if_true, hwrite]
    | false =>
        rw [(hp.unwritten henabled).records_eq] at hback
        cases hback
        refine .inr ⟨e, cs, { s with host := h₁ }, ?_, hforce, hcalm⟩
        simp only [Patch.uninstallChanges, q, heq, henabled, hp.withdrawn_eq henabled]
        rfl

/-- Uninstalling takes everything back, or leaves the patch as it is but for the reason. -/
theorem Steady.uninstall_cases (hp : p.Steady) (s : Site) :
    (∃ p' s', p.uninstall s = (true, p', s') ∧ p'.Steady ∧
        (s.host.pool.Sound → s'.host.pool.Sound)) ∨
      ∃ cs e s', p.uninstall s = (false, { p with changes := cs, lastError := some e }, s') ∧
        Forall₂ Change.InForce cs (p.changes.map Change.records) ∧ Calm s.host s'.host := by
  unfold Patch.uninstall
  split
  · exact .inl ⟨p, s, rfl, hp, id⟩
  · rcases hp.restoreAll s with ⟨m, hback, heq⟩ | ⟨e, s₁, heq, hcalm⟩
    · rcases hp.uninstallChanges (s := { s with host := s.host.withMemory m }) hback with
        ⟨s₂, heq', hsound⟩ | ⟨e, cs, s₂, heq', hforce, hcalm⟩
      · simp only [undo, heq, heq']
        refine .inl ⟨_, _, rfl, ⟨hp.install, hp.update, List.forall_mem_nil _, ?_, ?_⟩, ?_⟩
        · intro y hy
          obtain ⟨x, hx, rfl⟩ := mem_map.mp hy
          exact (hp.settings x hx).withdrawn
        · rw [Setting.Apart, Setting.bindings_withdrawn]
          exact hp.apart
        · intro hs
          exact (farewell_quiet _ s₂).sound (hsound hs)
      · simp only [undo, heq, heq']
        exact .inr ⟨_, _, _, rfl, hforce, hcalm.trans (calm_note _ (by decide) _)⟩
    · simp only [undo, heq]
      exact .inr ⟨_, _, _, rfl, Change.forall₂_inForce hp.changes,
        hcalm.trans (calm_note _ (by decide) _)⟩

/-! ## Installing -/

/-- A failed attempt to install: its settings are withdrawn, and its changes are reverted or kept.
-/
theorem Steady.abandon (hp : p.Steady) {ys : List Setting}
    (hys : ys.map Setting.withdrawn = p.settings) {m : Memory}
    (hback : Rewrites s.host.memory ((Setting.records ys).map UndoRecord.inverse) m)
    {cs : List Change} (hcs : ∀ c ∈ cs, ∃ rs, c.InForce rs) (hs : s.host.pool.Sound)
    (e : PatchError) :
    ∃ p' s', ({ p with settings := ys } : Patch).abandon cs e s = (false, p', s') ∧ p'.Steady ∧
      s'.host.pool.Sound := by
  have hrestore := Setting.restoreAll_eq_ok hback
  rw [hys] at hrestore
  unfold Patch.abandon
  simp only [hrestore]
  rcases Change.revertAll_cases (Change.forall₂_inForce hcs) (s.host.withMemory m) with
    ⟨cs', h₁, m₁, heq, hundone, -, hcalm⟩ | ⟨-, e', cs', h₁, heq, hforce, hcalm⟩
  · have hreleased := Change.releaseAll_quiet (Change.spent_of_undone hundone)
    simp only [heq]
    refine ⟨_, _, rfl, ⟨hp.install, hp.update, hp.changes, hp.settings, hp.apart⟩, ?_⟩
    exact (hreleased _).sound ((quiet_note ..).sound (hcalm.sound hs))
  · have hkept : ∀ c ∈ cs', ∃ rs, c.InForce rs := fun c hc ↦
      ⟨_, (Change.inForce_of_forall₂ hforce).1 c hc⟩
    simp only [heq]
    exact ⟨_, _, rfl, ⟨hp.install, hp.update, hkept, hp.settings, hp.apart⟩, hcalm.sound hs⟩

/-- An attempt leaves the patch steady, be it by success, by taking all back or by keeping the rest.
-/
theorem Steady.attempt (hp : p.Steady) (hdisabled : p.enabled = false)
    (hs : s.host.pool.Sound) :
    ∃ b p' s', p.attempt s = (b, p', s') ∧ p'.Steady ∧ s'.host.pool.Sound := by
  obtain ⟨o, cs, s₁, hrun, hforce, hs₁⟩ := (hp.install p.installs).run p.settings [] s hs
  rw [nil_append] at hrun
  have hcounted : ({ p with installs := p.installs + 1 } : Patch).Steady :=
    ⟨hp.install, hp.update, hp.changes, hp.settings, hp.apart⟩
  have hnone : Rewrites s₁.host.memory ((records p.settings).map UndoRecord.inverse)
      s₁.host.memory := by
    rw [(hp.unwritten hdisabled).records_eq]
    exact .nil _
  have hfailed := fun e ↦ hcounted.abandon (hp.withdrawn_eq hdisabled) hnone hforce hs₁ e
  unfold Patch.attempt
  rw [hrun]
  cases o with
  | failed e =>
      obtain ⟨p', s', heq, hends⟩ := hfailed e
      exact ⟨false, p', s', heq, hends⟩
  | aborted message =>
      obtain ⟨p', s', heq, hends⟩ := hfailed (.aborted message)
      exact ⟨false, p', s', heq, hends⟩
  | done =>
      obtain ⟨r, ys, s₂, m, hwrite, hsame, hsteps, hon, hw, hcalm⟩ :=
        writeAll_of_off (hdisabled ▸ hp.settings) s₁
      have hmemory : s₂.host.memory = m := hcalm.memory
      have hapart : Setting.Apart ys := by
        rw [Setting.Apart, ← bindings_withdrawn, hsame]
        exact hp.apart
      simp only [Outcome.toExcept, hwrite]
      cases r with
      | error e =>
          have hback : Rewrites s₂.host.memory ((records ys).map UndoRecord.inverse)
              s₁.host.memory := by
            rw [hmemory]
            exact hw.unwinds.inOrder (hapart.disjoint hsteps)
          obtain ⟨p', s', heq, hends⟩ := hcounted.abandon hsame hback hforce
            (hcalm.sound hs₁) (.setting e)
          exact ⟨false, p', s', heq, hends⟩
      | ok u =>
          exact ⟨true, _, _, rfl, ⟨hp.install, hp.update, hforce, hon rfl, hapart⟩,
            hcalm.sound hs₁⟩

theorem Steady.installed (hp : p.Steady) (hs : s.host.pool.Sound) :
    (p.install s).2.1.Steady ∧ (p.install s).2.2.host.pool.Sound := by
  unfold Patch.install
  split
  · exact ⟨hp, hs⟩
  · rename_i hdisabled
    rw [Bool.not_eq_true] at hdisabled
    unfold clearLeftovers
    rcases Change.revertAll_cases (Change.forall₂_inForce hp.changes) s.host with
      ⟨cs, h₁, m, heq, hundone, -, hcalm⟩ | ⟨-, e, cs, h₁, heq, hforce, hcalm⟩
    · have hreleased := Change.releaseAll_quiet (Change.spent_of_undone hundone) h₁
      have hs₁ := hreleased.sound (hcalm.sound hs)
      have hcleared : ({ p with changes := [] } : Patch).Steady :=
        ⟨hp.install, hp.update, fun _ hc ↦ (nomatch hc), hp.settings, hp.apart⟩
      simp only [heq]
      split
      · obtain ⟨b, p', s', hattempt, hends⟩ :=
          hcleared.attempt (s := { s with host := Change.releaseAll cs h₁ }) hdisabled hs₁
        rw [hattempt]
        exact hends
      · exact ⟨⟨hp.install, hp.update, fun _ hc ↦ (nomatch hc), hp.settings, hp.apart⟩, hs₁⟩
    · have hkept : ∀ c ∈ cs, ∃ rs, c.InForce rs := fun c hc ↦
        ⟨_, (Change.inForce_of_forall₂ hforce).1 c hc⟩
      simp only [heq]
      exact ⟨⟨hp.install, hp.update, hkept, hp.settings, hp.apart⟩, hcalm.sound hs⟩

/-! ## Updating and changing settings -/

theorem Steady.updated (hp : p.Steady) (hs : s.host.pool.Sound) :
    (p.update s).1.Steady ∧ (p.update s).2.host.pool.Sound := by
  unfold Patch.update
  split
  · obtain ⟨o, cs, s₁, hrun, hran, hs₁⟩ := (hp.update p.updates).run p.settings [] s hs
    have happend {ds : List Change} (hds : ∀ c ∈ ds, ∃ rs, c.InForce rs) :
        ∀ c ∈ p.changes ++ ds, ∃ rs, c.InForce rs := fun c hc ↦
      (mem_append.mp hc).elim (hp.changes c) (hds c)
    rw [nil_append] at hrun
    simp only [writePending_eq hp.settings, hrun]
    split
    · exact ⟨⟨hp.install, hp.update, happend hran, hp.settings, hp.apart⟩, hs₁⟩
    · rcases Change.revertAll_cases (Change.forall₂_inForce hran) s₁.host with
        ⟨cs', h₂, m, heq, hundone, -, hcalm⟩ | ⟨-, e', cs', h₂, heq, hforce, hcalm⟩
      · have hreleased := Change.releaseAll_quiet (Change.spent_of_undone hundone) h₂
        simp only [heq]
        exact ⟨⟨hp.install, hp.update, hp.changes, hp.settings, hp.apart⟩,
          hreleased.sound (hcalm.sound hs₁)⟩
      · have hkept := (Change.inForce_of_forall₂ hforce).1
        simp only [heq]
        exact ⟨⟨hp.install, hp.update, happend fun c hc ↦ ⟨_, hkept c hc⟩, hp.settings, hp.apart⟩,
          hcalm.sound hs₁⟩
  · exact ⟨hp, hs⟩

theorem Steady.configured (hp : p.Steady) (hs : s.host.pool.Sound) {name : String}
    (hkept : ∀ x ∈ p.settings, x.name = name → x.kind.clamp? x.value = some x.value)
    (v : Setting.Value) :
    (p.setSetting name v s).2.1.Steady ∧ (p.setSetting name v s).2.2.host.pool.Sound := by
  obtain ⟨r, ys, s₁, m, heq, hsteps, hbindings, hquiet⟩ :=
    changeFirst_cases hp.settings hkept v s
  have hapart : Setting.Apart ys := by
    rw [Setting.Apart, hbindings]
    exact hp.apart
  unfold Patch.setSetting
  rw [heq]
  cases r with
  | error e =>
      exact ⟨⟨hp.install, hp.update, hp.changes, hsteps, hapart⟩, hquiet.sound hs⟩
  | ok w =>
      exact ⟨⟨hp.install, hp.update, hp.changes, hsteps, hapart⟩, hquiet.sound hs⟩

/-! ## The life of a patch -/

/-- What a patch with this body can come to. In between the host does to memory, its bytes and its
protections, what it likes; it only leaves alone what the engine knows of its own pool. -/
inductive Lives (metadata : Metadata) (b : Body) : Patch → Site → Prop where
  | made {s : Site} (hs : s.host.pool.Sound) : Lives metadata b (.ofBody metadata b) s
  | install {p : Patch} {s : Site} (hl : Lives metadata b p s) :
      Lives metadata b (p.install s).2.1 (p.install s).2.2
  | uninstall {p : Patch} {s : Site} (hl : Lives metadata b p s) :
      Lives metadata b (p.uninstall s).2.1 (p.uninstall s).2.2
  | update {p : Patch} {s : Site} (hl : Lives metadata b p s) :
      Lives metadata b (p.update s).1 (p.update s).2
  /-- A setting is changed that would keep the value it has if it were given it again. -/
  | setSetting {p : Patch} {s : Site} (hl : Lives metadata b p s) (name : String)
      (v : Setting.Value)
      (hkept : ∀ x ∈ p.settings, x.name = name → x.kind.clamp? x.value = some x.value) :
      Lives metadata b (p.setSetting name v s).2.1 (p.setSetting name v s).2.2
  | host {p : Patch} {s : Site} (hl : Lives metadata b p s) (s' : Site)
      (hs : s'.host.pool.Sound) : Lives metadata b p s'

/-- However long a patch lives and whatever its host does, it is steady. -/
theorem Lives.steady {metadata : Metadata} {b : Body} (hb : b.Real) (hl : Lives metadata b p s) :
    p.Steady ∧ s.host.pool.Sound := by
  induction hl with
  | made hs => exact ⟨.ofBody hb, hs⟩
  | install _ ih => exact ih.1.installed ih.2
  | @uninstall p s _ ih =>
      rcases ih.1.uninstall_cases s with
        ⟨p', s', heq, hp', hsound⟩ | ⟨cs, e, s', heq, hforce, hcalm⟩
      · rw [heq]
        exact ⟨hp', hsound ih.2⟩
      · have hkept := (Change.inForce_of_forall₂ hforce).1
        rw [heq]
        exact ⟨⟨ih.1.install, ih.1.update, fun c hc ↦ ⟨_, hkept c hc⟩, ih.1.settings, ih.1.apart⟩,
          hcalm.sound ih.2⟩
  | update _ ih => exact ih.1.updated ih.2
  | setSetting _ name v hkept ih => exact ih.1.configured ih.2 hkept v
  | host _ s' hs ih => exact ⟨ih.1, hs⟩

/-- A patch without scripted hooks is uninstalled or left as it is, whatever became of memory in
its life: when uninstalling fails, memory is the same, page by page and byte by byte, and so is the
patch but for the reason of the failure. Its changes are all in force, by the records that they
had, and nothing that was undone on the way failed to be applied or written again, which would have
been reported. -/
theorem uninstall_failed {metadata : Metadata} {b : Body} (hb : b.Real)
    (hl : Lives metadata b p s) (hfailed : (p.uninstall s).1 = false) :
    let p' := (p.uninstall s).2.1
    let s' := (p.uninstall s).2.2
    s'.host.memory = s.host.memory ∧ s'.host.errors = s.host.errors ∧
      p' = { p with changes := p'.changes, lastError := p'.lastError } ∧
      p'.changes.map Change.records = p.changes.map Change.records ∧
      ∀ c ∈ p'.changes, c.InForce c.records := by
  rcases (hl.steady hb).1.uninstall_cases s with
    ⟨p', s', heq, -, -⟩ | ⟨cs, e, s', heq, hforce, hcalm⟩
  · rw [heq] at hfailed
    cases hfailed
  · obtain ⟨hkept, hrecords⟩ := Change.inForce_of_forall₂ hforce
    rw [heq]
    exact ⟨hcalm.memory, hcalm.errors, rfl, hrecords, hkept⟩

/-- A setting and two overlapping writes, and then the host changes the first byte: the setting and
the later write are undone before the earlier one cannot be. -/
theorem uninstall_failed_overlapping :
    let x : Setting := (Setting.bool "x" true).bind ⟨.fixed 16, .u8⟩
    let e : Edit := .write (.bytes 0 [1, 1]) fun _ ↦ .write (.bytes 1 [2]) fun _ ↦ .done
    let b : Body := .ofProgram [x] (.transaction e (Program.after .done))
    let p : Patch := .ofBody (.named "A") b
    let s : Site := ⟨.new .unknown ⟨0, 0⟩, .onePage⟩
    let p₁ := (p.install s).2.1
    let s₁ : Site := { s with host := (p.install s).2.2.host.poke 0 [3] }
    (p.install s).1 = true ∧ (p₁.uninstall s₁).1 = false ∧
      (p₁.uninstall s₁).2.2.host.memory = s₁.host.memory ∧
      (p₁.uninstall s₁).2.1.changes.map Change.records = p₁.changes.map Change.records := by
  intro x e b p s p₁ s₁
  have hb : b.Real := by
    refine ⟨fun _ r ↦ ?_, fun _ ↦ trivial, ?_, ?_⟩
    · cases r <;> trivial
    · exact forall_mem_singleton.mpr (.off rfl rfl rfl rfl)
    · exact pairwise_singleton _ _
  have hinstalled : Lives (.named "A") b p₁ (p.install s).2.2 :=
    .install (.made Trampoline.Pool.sound_empty)
  have hl : Lives (.named "A") b p₁ s₁ := .host hinstalled s₁ (hinstalled.steady hb).2
  have hfailed : (p₁.uninstall s₁).1 = false := by decide
  obtain ⟨hmemory, -, -, hrecords, -⟩ := uninstall_failed hb hl hfailed
  exact ⟨by decide, hfailed, hmemory, hrecords⟩

end Patch

end HotPatch
