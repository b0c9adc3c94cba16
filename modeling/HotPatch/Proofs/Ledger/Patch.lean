import HotPatch.Manager.Saved
import HotPatch.Proofs.Ledger.Change
import HotPatch.Proofs.Ledger.Setting
import HotPatch.Proofs.Patch.Program
import HotPatch.Proofs.Patch.Undoing

/-!
# The ledger of a patch

Whatever becomes of an attempt to install, uninstall, update or configure a patch, memory lacks
exactly what the changes and settings that the patch still holds owe.
-/

namespace HotPatch

open Host

variable {x : Address} {v : UInt8} {own : Bool} {total d : Int} {s : Site}

namespace Patch

variable {p p₁ p' : Patch} {s₁ s' : Site} {cs : List Change}

/-- What the patch has put into memory. -/
def owed (x : Address) (v : UInt8) (p : Patch) : Int :=
  Setting.owed x v p.settings + Change.owed x v p.changes

/-- What comes of a patch that an operation is over with: memory lacks what the patch owes. -/
structure Settled (x : Address) (v : UInt8) (own : Bool) (total d : Int) (p p' : Patch)
    (s' : Site) :
    Prop where
  body : p'.body = p.body
  changes : ∀ c ∈ p'.changes, c.Sound own
  balance : InBalance x v own total (d + p'.owed x v) s'.host

namespace Settled

theorem refl (hp : ∀ c ∈ p.changes, c.Sound own)
    (hb : InBalance x v own total (d + p.owed x v) s.host) : Settled x v own total d p p s :=
  ⟨rfl, hp, hb⟩

theorem trans (hp : Settled x v own total d p p₁ s₁) (hp' : Settled x v own total d p₁ p' s') :
    Settled x v own total d p p' s' :=
  ⟨hp'.body.trans hp.body, hp'.changes, hp'.balance⟩

theorem fail (hp : Settled x v own total d p p' s') (action : String) (e : PatchError) :
    Settled x v own total d p (p'.fail action e s').1 (p'.fail action e s').2 :=
  ⟨hp.body, hp.changes, hp.balance.quiet (quiet_note ..)⟩

end Settled

/-! ## Installing -/

def giveUp (p : Patch) (changes : List Change) (e : PatchError) (s : Site) : Bool × Patch × Site :=
  match Change.revertAll changes s.host with
  | (.ok (), changes, h) =>
    match p.fail "install" e { s with host := h } with
    | (p, s) => (false, p, { s with host := Change.releaseAll changes s.host })
  | (.error r, changes, h) =>
    let h := h.note .error ("Failed to roll back " ++ p.name ++
      ", keeping its changes for a later uninstall: " ++ r.message)
    match { p with changes }.fail "install" e { s with host := h } with
    | (p, s) => (false, p, s)

theorem abandon_eq {r : Except SettingError Unit} {xs : List Setting} {s₁ : Site}
    (heq : Setting.restoreAll p.settings s = (r, xs, s₁)) (cs : List Change) (e : PatchError) :
    ∃ s₂, Told s₁.host s₂.host ∧
      p.abandon cs e s = ({ p with settings := xs } : Patch).giveUp cs e s₂ := by
  cases r with
  | ok u => exact ⟨s₁, .refl _, by rw [abandon, heq]; rfl⟩
  | error e' => exact ⟨_, .note .., by rw [abandon, heq]; rfl⟩

/-- Changes that are all reverted owe nothing and end. -/
theorem release_balanced {h : Host} (hcs : ∀ c ∈ cs, c.Sound own) (hreverted : ∀ c ∈ cs, c.Reverted)
    (hb : InBalance x v own total (d + Change.owed x v cs) h) :
    InBalance x v own total d (Change.releaseAll cs h) := by
  have hover : ∀ c ∈ cs, c.Sound own ∧ c.Reverted := fun c hc ↦ ⟨hcs c hc, hreverted c hc⟩
  rw [Change.owed_of_reverted hover, Int.add_zero] at hb
  exact hb.quiet (Change.releaseAll_quiet_of_reverted hover h)

theorem giveUp_settled (hempty : p.changes = []) (hcs : ∀ c ∈ cs, c.Sound own)
    (hb : InBalance x v own total (d + Setting.owed x v p.settings + Change.owed x v cs) s.host)
    (e : PatchError) :
    ∃ p' s', p.giveUp cs e s = (false, p', s') ∧ Settled x v own total d p p' s' := by
  obtain ⟨r, cs', h₁, heq, hcs', hb₁, hreverted⟩ := Change.revertAll_balanced hcs hb
  unfold giveUp
  rw [heq]
  cases r with
  | ok u =>
      refine ⟨_, _, rfl, rfl, ?_, ?_⟩
      · show ∀ c ∈ p.changes, c.Sound own
        rw [hempty]
        exact fun _ hc ↦ (nomatch hc)
      · refine (release_balanced hcs' (hreverted rfl) (hb₁.quiet (quiet_note ..))).congr ?_
        simp [owed, hempty]
  | error e' =>
      refine ⟨_, _, rfl, rfl, hcs', ?_⟩
      refine ((hb₁.quiet (quiet_note ..)).quiet (quiet_note ..)).congr ?_
      simp only [owed]
      omega

theorem abandon_settled (hempty : p.changes = []) (hcs : ∀ c ∈ cs, c.Sound own)
    (hb : InBalance x v own total (d + Setting.owed x v p.settings + Change.owed x v cs) s.host)
    (e : PatchError) :
    ∃ p' s', p.abandon cs e s = (false, p', s') ∧ Settled x v own total d p p' s' := by
  have hframe : InBalance x v own total
      (d + Change.owed x v cs + Setting.owed x v p.settings) s.host := hb.congr (by omega)
  obtain ⟨r, xs, s₁, hrestore, hb₁⟩ := Setting.restoreAll_balanced hframe
  obtain ⟨s₂, htold, heq⟩ := abandon_eq hrestore cs e
  have hframe' : InBalance x v own total (d + Setting.owed x v xs + Change.owed x v cs) s₂.host :=
    (hb₁.quiet htold.quiet).congr (by omega)
  obtain ⟨p', s', heq', hsettled⟩ := giveUp_settled (p := { p with settings := xs }) hempty hcs
    hframe' e
  exact ⟨p', s', heq.trans heq', hsettled.body, hsettled.changes, hsettled.balance⟩

/-- An attempt settles if what the body recorded is sound and owes what the body has put into
memory. -/
theorem attempt_settled {o : Outcome} (hempty : p.changes = [])
    (hrun : (p.body.install p.installs).run p.settings [] s = (o, cs, s₁))
    (hcs : ∀ c ∈ cs, c.Sound own)
    (hb : InBalance x v own total (d + Setting.owed x v p.settings + Change.owed x v cs) s₁.host) :
    Settled x v own total d p (p.attempt s).2.1 (p.attempt s).2.2 := by
  have hfailed (e : PatchError) :=
    abandon_settled (p := { p with installs := p.installs + 1 }) hempty hcs hb e
  unfold attempt
  rw [hrun]
  cases o with
  | failed e =>
      obtain ⟨p', s', heq, hsettled⟩ := hfailed e
      simp only [Outcome.toExcept, heq]
      exact ⟨hsettled.body, hsettled.changes, hsettled.balance⟩
  | aborted message =>
      obtain ⟨p', s', heq, hsettled⟩ := hfailed (.aborted message)
      simp only [Outcome.toExcept, heq]
      exact ⟨hsettled.body, hsettled.changes, hsettled.balance⟩
  | done =>
      have hframe : InBalance x v own total
          (d + Change.owed x v cs + Setting.owed x v p.settings) s₁.host := hb.congr (by omega)
      obtain ⟨r, xs, s₂, hwrite, hb₂⟩ := Setting.writeAll_balanced hframe
      simp only [Outcome.toExcept, hwrite]
      cases r with
      | error e =>
          have hframe' : InBalance x v own total (d + Setting.owed x v xs + Change.owed x v cs)
              s₂.host := hb₂.congr (by omega)
          obtain ⟨p', s', heq, hsettled⟩ := abandon_settled
            (p := { p with installs := p.installs + 1, settings := xs }) hempty hcs hframe'
            (.setting e)
          simp only [heq]
          exact ⟨hsettled.body, hsettled.changes, hsettled.balance⟩
      | ok u =>
          refine ⟨rfl, hcs, (hb₂.quiet (quiet_note ..)).congr ?_⟩
          simp only [owed]
          omega

/-- Changes that are left over are reverted, or they are owed still. -/
theorem clearLeftovers_settled (hp : ∀ c ∈ p.changes, c.Sound own)
    (hb : InBalance x v own total (d + p.owed x v) s.host) :
    ∃ r p' s', p.clearLeftovers s = (r, p', s') ∧ Settled x v own total d p p' s' ∧
      (r = .ok () → p'.changes = []) := by
  have hframe : InBalance x v own total
      (d + Setting.owed x v p.settings + Change.owed x v p.changes) s.host :=
    hb.congr (by simp only [owed]; omega)
  obtain ⟨r, cs, h₁, heq, hcs, hb₁, hreverted⟩ := Change.revertAll_balanced hp hframe
  unfold clearLeftovers
  rw [heq]
  cases r with
  | ok u =>
      refine ⟨_, _, _, rfl, ⟨rfl, fun _ hc ↦ (nomatch hc), ?_⟩, fun _ ↦ rfl⟩
      exact (release_balanced hcs (hreverted rfl) hb₁).congr (by simp [owed])
  | error e =>
      refine ⟨_, _, _, rfl, ⟨rfl, hcs, hb₁.congr ?_⟩, fun hr ↦ (nomatch hr)⟩
      simp only [owed]
      omega

/-- The patch and its site when an install gets to its body. -/
def attempted? (p : Patch) (s : Site) : Option (Patch × Site) :=
  if p.enabled then none
  else
    match p.clearLeftovers s with
    | (.error _, _, _) => none
    | (.ok (), p, s) =>
      if p.metadata.versions.contains s.resolver.version then some (p, s) else none

theorem install_of_attempted (ha : p.attempted? s = some (p₁, s₁)) :
    p.install s = p₁.attempt s₁ ∧ p.clearLeftovers s = (.ok (), p₁, s₁) := by
  unfold attempted? at ha
  unfold Patch.install
  split at ha
  · cases ha
  · rename_i hdisabled
    rw [if_neg hdisabled]
    split at ha
    · cases ha
    · rename_i p₂ s₂ heq
      split at ha
      · rename_i hversion
        cases ha
        simp only [heq, if_pos hversion]
        exact ⟨trivial, trivial⟩
      · cases ha

theorem install_of_not_attempted (ha : p.attempted? s = none) (hp : ∀ c ∈ p.changes, c.Sound own)
    (hb : InBalance x v own total (d + p.owed x v) s.host) :
    Settled x v own total d p (p.install s).2.1 (p.install s).2.2 := by
  unfold attempted? at ha
  unfold Patch.install
  split
  · exact .refl hp hb
  · rename_i hdisabled
    rw [if_neg hdisabled] at ha
    obtain ⟨r, p₁, s₁, heq, hsettled, -⟩ := clearLeftovers_settled hp hb
    rw [heq] at ha ⊢
    cases r with
    | error e => exact hsettled.fail ..
    | ok u =>
        simp only at ha ⊢
        split
        · rename_i hversion
          rw [if_pos hversion] at ha
          cases ha
        · exact hsettled.fail ..

/-! ## Uninstalling -/

theorem uninstallChanges_settled (hp : ∀ c ∈ p.changes, c.Sound own)
    (hb : InBalance x v own total (d + p.owed x v) s.host) :
    ∃ r p' s', p.uninstallChanges s = (r, p', s') ∧ Settled x v own total d p p' s' ∧
      (r = .ok () → p'.changes = [] ∧ p'.settings = p.settings) := by
  have hframe : InBalance x v own total
      (d + Setting.owed x v p.settings + Change.owed x v p.changes) s.host :=
    hb.congr (by simp only [owed]; omega)
  obtain ⟨r, cs, h₁, heq, hcs, hb₁, hreverted⟩ := Change.revertAll_balanced hp hframe
  unfold uninstallChanges
  rw [heq]
  cases r with
  | ok u =>
      refine ⟨_, _, _, rfl, ⟨rfl, fun _ hc ↦ (nomatch hc), ?_⟩, fun _ ↦ ⟨rfl, rfl⟩⟩
      exact (release_balanced hcs (hreverted rfl) hb₁).congr (by simp [owed])
  | error e =>
      have hframe' : InBalance x v own total
          (d + Change.owed x v cs + Setting.owed x v p.settings) h₁ := hb₁.congr (by omega)
      simp only
      split
      · obtain ⟨r, xs, s₂, hwrite, hb₂⟩ :=
          Setting.writeAll_balanced (s := { s with host := h₁ }) hframe'
        simp only [hwrite]
        cases r with
        | ok u =>
            refine ⟨_, _, _, rfl, ⟨rfl, hcs, hb₂.congr ?_⟩, fun hr ↦ (nomatch hr)⟩
            simp only [owed]
            omega
        | error w =>
            refine ⟨_, _, _, rfl, ⟨rfl, hcs, (hb₂.quiet (quiet_note ..)).congr ?_⟩,
              fun hr ↦ (nomatch hr)⟩
            simp only [owed]
            omega
      · refine ⟨_, _, _, rfl, ⟨rfl, hcs, hb₁.congr ?_⟩, fun hr ↦ (nomatch hr)⟩
        simp only [owed]
        omega

theorem undo_settled (hp : ∀ c ∈ p.changes, c.Sound own)
    (hb : InBalance x v own total (d + p.owed x v) s.host) :
    ∃ r p' s', p.undo s = (r, p', s') ∧ Settled x v own total d p p' s' ∧
      (r = .ok () → p'.changes = [] ∧ Setting.Unwritten p'.settings) := by
  have hframe : InBalance x v own total
      (d + Change.owed x v p.changes + Setting.owed x v p.settings) s.host :=
    hb.congr (by simp only [owed]; omega)
  obtain ⟨r, xs, s₁, heq, hb₁⟩ := Setting.restoreAll_balanced hframe
  have hrestored : InBalance x v own total
      (d + ({ p with settings := xs } : Patch).owed x v) s₁.host :=
    hb₁.congr (by simp only [owed]; omega)
  unfold undo
  rw [heq]
  cases r with
  | error e => exact ⟨_, _, _, rfl, ⟨rfl, hp, hrestored⟩, fun hr ↦ (nomatch hr)⟩
  | ok u =>
      obtain ⟨r, p', s', heq', hsettled, hdone⟩ :=
        uninstallChanges_settled (p := { p with settings := xs }) hp hrestored
      refine ⟨r, p', s', heq', ⟨hsettled.body, hsettled.changes, hsettled.balance⟩, fun hr ↦ ?_⟩
      obtain ⟨hchanges, hsettings⟩ := hdone hr
      refine ⟨hchanges, ?_⟩
      rw [hsettings, Setting.restoreAll_ok heq]
      exact Setting.unwritten_withdrawn _

theorem uninstall_settled (hp : ∀ c ∈ p.changes, c.Sound own)
    (hb : InBalance x v own total (d + p.owed x v) s.host) :
    Settled x v own total d p (p.uninstall s).2.1 (p.uninstall s).2.2 := by
  unfold Patch.uninstall
  split
  · exact .refl hp hb
  · obtain ⟨r, p₁, s₁, heq, hsettled, -⟩ := undo_settled hp hb
    rw [heq]
    cases r with
    | error e => exact hsettled.fail ..
    | ok u =>
        exact ⟨hsettled.body, hsettled.changes,
          (hsettled.balance.quiet (farewell_quiet ..)).quiet (quiet_note ..)⟩

/-! ## Updating -/

/-- An update adds what its body recorded to what the patch owes, also when it fails. -/
theorem update_settled {xs : List Setting} {o : Outcome} (henabled : p.enabled = true)
    (hp : ∀ c ∈ p.changes, c.Sound own)
    (hpending : Setting.writePending p.name p.settings s = (xs, s₁))
    (hrun : (p.body.update p.updates).run xs [] s₁ = (o, cs, s'))
    (hcs : ∀ c ∈ cs, c.Sound own)
    (hb : InBalance x v own total
      (d + Change.owed x v p.changes + Setting.owed x v xs + Change.owed x v cs) s'.host) :
    Settled x v own total d p (p.update s).1 (p.update s).2 := by
  have happend {cs : List Change} (hcs : ∀ c ∈ cs, c.Sound own) :
      ∀ c ∈ p.changes ++ cs, c.Sound own := by
    intro c hc
    rcases List.mem_append.mp hc with hc | hc
    · exact hp c hc
    · exact hcs c hc
  unfold Patch.update
  simp only [if_pos henabled, hpending, hrun]
  split
  · refine ⟨rfl, happend hcs, hb.congr ?_⟩
    simp only [owed, Change.owed_append]
    omega
  · obtain ⟨r, cs', h₃, hrevert, hcs', hb₃, hreverted⟩ := Change.revertAll_balanced hcs hb
    simp only [hrevert]
    cases r with
    | ok u =>
        refine ⟨rfl, hp, ?_⟩
        refine ((release_balanced hcs' (hreverted rfl) hb₃).quiet (quiet_note ..)).congr ?_
        simp only [owed, fail]
        omega
    | error e =>
        refine ⟨rfl, happend hcs', ((hb₃.quiet (quiet_note ..)).quiet (quiet_note ..)).congr ?_⟩
        simp only [owed, fail, Change.owed_append]
        omega

/-! ## Configuring -/

/-- Giving a setting a value keeps the balance, whichever way it goes. -/
theorem setSetting_settled (hp : ∀ c ∈ p.changes, c.Sound own)
    (hb : InBalance x v own total (d + p.owed x v) s.host) (name : String) (w : Setting.Value) :
    Settled x v own total d p (p.setSetting name w s).2.1 (p.setSetting name w s).2.2 := by
  have hframe : InBalance x v own total
      (d + Change.owed x v p.changes + Setting.owed x v p.settings) s.host :=
    hb.congr (by simp only [owed]; omega)
  obtain ⟨r, xs, s₁, heq, hb₁⟩ := Setting.changeFirst_balanced hframe name w p.enabled
  simp only [Patch.setSetting, heq]
  cases r with
  | error e =>
      refine ⟨rfl, hp, hb₁.congr ?_⟩
      simp only [owed]
      omega
  | ok w =>
      refine ⟨rfl, hp, (hb₁.quiet (quiet_note ..)).congr ?_⟩
      simp only [owed]
      omega

/-! ## Plain bodies -/

structure Sound (p : Patch) : Prop where
  install : ∀ n, (p.body.install n).Plain
  update : ∀ n, (p.body.update n).Plain
  changes : ∀ c ∈ p.changes, c.Sound false

theorem Settled.sound (hp' : Settled x v false total d p p' s') (hp : p.Sound) : p'.Sound :=
  ⟨hp'.body ▸ hp.install, hp'.body ▸ hp.update, hp'.changes⟩

def Settles {α : Type} (f : Patch → Site → α × Patch × Site) : Prop :=
  ∀ {x : Address} {v : UInt8} {total d : Int} {p : Patch} {s : Site}, p.Sound →
    InBalance x v false total (d + p.owed x v) s.host →
    Settled x v false total d p (f p s).2.1 (f p s).2.2

theorem run_balanced {q : Program} (hq : q.Plain) (settings : List Setting)
    (hb : InBalance x v own total d s.host) :
    ∃ o new s', q.run settings [] s = (o, new, s') ∧ (∀ c ∈ new, c.Sound own) ∧
      InBalance x v own total (d + Change.owed x v new) s'.host := by
  obtain ⟨o, new, s', heq, ha⟩ := hq.run settings [] s hb.sound
  refine ⟨o, new, s', heq, fun c hc ↦ ?_, ha.balanced hb⟩
  obtain ⟨rs, hforce⟩ := ha.inForce c hc
  exact hforce.sound

theorem settles_install : Settles Patch.install := by
  intro x v total d p s hp hb
  cases ha : p.attempted? s with
  | none => exact install_of_not_attempted ha hp.changes hb
  | some ps =>
      obtain ⟨p₁, s₁⟩ := ps
      obtain ⟨hattempt, hcleared⟩ := install_of_attempted ha
      obtain ⟨r, p₂, s₂, heq, hsettled, hempty⟩ := clearLeftovers_settled hp.changes hb
      cases hcleared.symm.trans heq
      have hnone := hempty rfl
      have hsettings : InBalance x v false total (d + Setting.owed x v p₁.settings) s₁.host :=
        hsettled.balance.congr (by simp [owed, hnone])
      obtain ⟨o, cs, s₂, hrun, hcs, hb₂⟩ :=
        run_balanced ((hsettled.sound hp).install p₁.installs) p₁.settings hsettings
      rw [hattempt]
      exact hsettled.trans (attempt_settled hnone hrun hcs hb₂)

theorem settles_uninstall : Settles Patch.uninstall := by
  intro x v total d p s hp hb
  exact uninstall_settled hp.changes hb

theorem update_plain (hp : p.Sound) (hb : InBalance x v false total (d + p.owed x v) s.host) :
    Settled x v false total d p (p.update s).1 (p.update s).2 := by
  cases henabled : p.enabled with
  | false =>
      simp only [Patch.update, henabled]
      exact .refl hp.changes hb
  | true =>
      have hframe : InBalance x v false total
          (d + Change.owed x v p.changes + Setting.owed x v p.settings) s.host :=
        hb.congr (by simp only [owed]; omega)
      obtain ⟨xs, s₁, hpending, hb₁⟩ := Setting.writePending_balanced p.name hframe
      obtain ⟨o, cs, s₂, hrun, hcs, hb₂⟩ := run_balanced (hp.update p.updates) xs hb₁
      exact update_settled henabled hp.changes hpending hrun hcs hb₂

theorem settles_setSetting (name : String) (w : Setting.Value) :
    Settles fun p s ↦ p.setSetting name w s := by
  intro x v total d p s hp hb
  exact setSetting_settled hp.changes hb name w

theorem restoreSettings_settled (hp : ∀ c ∈ p.changes, c.Sound own)
    (hb : InBalance x v own total (d + p.owed x v) s.host) (entries : List (String × Toml.Value)) :
    Settled x v own total d p (p.restoreSettings entries s).1 (p.restoreSettings entries s).2 := by
  induction entries generalizing p s with
  | nil => exact .refl hp hb
  | cons entry entries ih =>
      obtain ⟨key, w⟩ := entry
      rw [restoreSettings]
      split
      · exact ih hp (hb.quiet (quiet_note ..))
      · split
        · exact ih hp (hb.quiet (quiet_note ..))
        · rename_i w' _
          have hset := setSetting_settled hp hb key w'
          rcases heq : p.setSetting key w' s with ⟨r, p₁, s₁⟩
          rw [heq] at hset
          cases r with
          | ok u => exact hset.trans (ih hset.changes hset.balance)
          | error e =>
              refine hset.trans (ih hset.changes ?_)
              exact hset.balance.quiet (quiet_note ..)

theorem settles_restore (saved : Section) : Settles fun p s ↦ ((), p.restore saved s) := by
  intro x v total d p s hp hb
  have hset := restoreSettings_settled hp.changes hb saved.settings
  rcases heq : p.restoreSettings saved.settings s with ⟨p₁, s₁⟩
  rw [heq] at hset
  have hp₁ := hset.sound hp
  have htouched : p₁.touch.Sound := ⟨hp₁.install, hp₁.update, hp₁.changes⟩
  simp only [Patch.restore, heq]
  split
  · exact hset
  · have hdone := settles_install htouched hset.balance
    exact hset.trans ⟨hdone.body, hdone.changes, hdone.balance⟩
  · have hdone := settles_uninstall htouched hset.balance
    exact hset.trans ⟨hdone.body, hdone.changes, hdone.balance⟩

end Patch

end HotPatch
