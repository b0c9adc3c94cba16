import HotPatch.Proofs.Manager.Teardown
import HotPatch.Proofs.Patch.Keeping
import HotPatch.Proofs.Patch.Layers
import HotPatch.Proofs.Setting.Replacing

/-!
# Standing patches

The changes of a patch lead from memory as it was to memory as it is beneath its settings. While its
writes keep apart from each other that stays so, whatever it is called on to do, and all of it can
be undone.
-/

namespace HotPatch

open Host

namespace Patch

variable {p : Patch} {s : Site} {h₀ h h' : Host}

/-- What the patch has put into memory since `h₀`: its changes, and the writes of its settings on
top of them. -/
structure Standing (h₀ : Host) (p : Patch) (h : Host) : Prop where
  install : ∀ n, (p.body.install n).Plain
  update : ∀ n, (p.body.update n).Plain
  clean : p.enabled = false → p.Clean
  layered : ∃ g, Change.Applies p.changes h₀ (h.withMemory g) ∧
    Rewrites g (Setting.records p.settings) h.memory
  apart : (Setting.records p.settings).Pairwise UndoRecord.Disjoint
  settings : ∀ r ∈ Setting.records p.settings, r.Avoids h.pool.Covers
  changes : ∀ c ∈ p.changes, ∀ r ∈ c.records, r.Avoids h.pool.Covers
  sound : h.pool.Sound

namespace Standing

theorem of_clean (hinstall : ∀ n, (p.body.install n).Plain) (hupdate : ∀ n, (p.body.update n).Plain)
    (hp : p.Clean) (hi : Intact h₀ h) (hs : h.pool.Sound) : p.Standing h₀ h where
  install := hinstall
  update := hupdate
  clean _ := hp
  layered := by
    rw [hp.changes, hp.settings.records_eq]
    exact ⟨h.memory, .nil hi, .nil _⟩
  apart := by
    rw [hp.settings.records_eq]
    exact .nil
  settings := by
    rw [hp.settings.records_eq]
    exact List.forall_mem_nil _
  changes := by
    rw [hp.changes]
    exact List.forall_mem_nil _
  sound := hs

theorem congr {q : Patch} (hp : p.Standing h₀ h) (hbody : q.body = p.body)
    (henabled : q.enabled = p.enabled) (hsettings : q.settings = p.settings)
    (hchanges : q.changes = p.changes) : q.Standing h₀ h := by
  obtain ⟨metadata, body, installs, updates, enabled, lastError, settings, changes, touched⟩ := q
  cases hbody
  cases henabled
  cases hsettings
  cases hchanges
  refine ⟨hp.install, hp.update, fun hdisabled ↦ ?_, hp.layered, hp.apart, hp.settings, hp.changes,
    hp.sound⟩
  have hclean := hp.clean hdisabled
  exact ⟨hclean.disabled, hclean.changes, hclean.settings⟩

theorem intact (hp : p.Standing h₀ h) (hclean : p.Clean) : Intact h₀ h := by
  obtain ⟨g, ha, hw⟩ := hp.layered
  rw [hclean.changes] at ha
  rw [hclean.settings.records_eq] at hw
  cases hw
  cases ha with
  | nil hintact => exact hintact

theorem quiet (hp : p.Standing h₀ h) (hq : Quiet h h') : p.Standing h₀ h' where
  install := hp.install
  update := hp.update
  clean := hp.clean
  layered := by
    obtain ⟨g, ha, hw⟩ := hp.layered
    rw [← hq.memory] at hw
    exact ⟨g, ha.intact_right (hq.withMemory g).intact, hw⟩
  apart := hp.apart
  settings r hr x hx hin := hp.settings r hr x hx ((hq.covers x).mp hin)
  changes c hc r hr x hx hin := hp.changes c hc r hr x hx ((hq.covers x).mp hin)
  sound := hq.sound hp.sound

/-! ## Uninstalling -/

theorem undoable (hp : p.Standing h₀ h) (henabled : p.enabled = true) :
    p.Undoable Intact h₀ h := by
  obtain ⟨g, ha, hw⟩ := hp.layered
  have hr : Change.Revertible Intact p.changes h₀ (h.withMemory g) := ha.revertible hp.changes
  refine undoable_of_enabled tolerant_intact henabled hr fun h₃ hbeyond ↦ ?_
  have hw' : Rewrites (h.withMemory g).memory (Setting.records p.settings) h.memory := hw
  obtain ⟨m, hu, hback⟩ := Intact.unwinds hw' hp.settings (Quiet.refl h) hbeyond
  exact ⟨m, hu.inOrder hp.apart, hback⟩

/-- A standing patch is taken out of memory whenever that is asked for. -/
theorem uninstall_clean (hp : p.Standing h₀ s.host) :
    ∃ p' s', p.uninstall s = (true, p', s') ∧ p'.Clean ∧ Intact h₀ s'.host := by
  cases henabled : p.enabled with
  | true =>
      obtain ⟨p', s', heq, hclean, -, hback⟩ := hp.undoable henabled s (.refl s.host)
      exact ⟨p', s', heq, hclean, hback⟩
  | false =>
      have hclean := hp.clean henabled
      exact ⟨p, s, hclean.uninstall s, hclean, hp.intact hclean⟩

theorem uninstall (hp : p.Standing h₀ s.host) (hs : h₀.pool.Sound) :
    (p.uninstall s).2.1.Standing h₀ (p.uninstall s).2.2.host := by
  obtain ⟨p', s', heq, hclean, hback⟩ := hp.uninstall_clean
  have hbody := (p.uninstall_keeps s).body
  rw [heq] at hbody ⊢
  refine of_clean (fun n ↦ ?_) (fun n ↦ ?_) hclean hback (hback.sound hs)
  · rw [hbody]
    exact hp.install n
  · rw [hbody]
    exact hp.update n

end Standing

/-! ## Installing -/

/-- An attempt succeeds if the body does and then all settings are written or put off. -/
theorem attempt_eq_true {o : Outcome} {cs : List Change} {s₁ : Site}
    (hrun : (p.body.install p.installs).run p.settings [] s = (o, cs, s₁))
    (hok : (p.attempt s).1 = true) :
    ∃ ys s₂ s', Setting.writeAll p.settings s₁ = (.ok (), ys, s₂) ∧ o = .done ∧
      p.attempt s = (true, { p with
        installs := p.installs + 1
        settings := ys
        changes := cs
        enabled := true
        lastError := none }, s') ∧ Quiet s₂.host s'.host := by
  unfold attempt at hok ⊢
  rw [hrun] at hok ⊢
  cases o with
  | failed e => cases hok.symm.trans (abandon_enabled ..).1
  | aborted message => cases hok.symm.trans (abandon_enabled ..).1
  | done =>
      simp only [Outcome.toExcept] at hok ⊢
      rcases hwrite : Setting.writeAll p.settings s₁ with ⟨e | u, ys, s₂⟩
      · rw [hwrite] at hok
        cases hok.symm.trans (abandon_enabled ..).1
      · exact ⟨ys, s₂, _, rfl, trivial, rfl, quiet_note ..⟩

/-- An attempt puts changes and settings on top of what is there, or it takes them back. -/
theorem Standing.attempt (hp : p.Standing h₀ s.host) (hclean : p.Clean) (hsep : p.Separate s) :
    (p.attempt s).2.1.Standing h₀ (p.attempt s).2.2.host := by
  have hbody := (p.attempt_keeps s).body
  obtain ⟨o, cs, s₁, hrun, ha⟩ := (hp.install p.installs).run p.settings [] s hp.sound
  rw [List.nil_append] at hrun
  have hr := ha.revertible (hsep.changes hrun)
  have hx : o = .done → Setting.Restorable Intact (Setting.writeAll p.settings s₁).2.1 s₁.host
      (Setting.writeAll p.settings s₁).2.2.host := by
    rintro rfl
    exact restorable_of_apart hclean.settings (hsep.settings hrun) (hsep.apart hrun)
  obtain ⟨b, p', s', heq, -, hends⟩ := attempt_cases tolerant_intact hclean hrun hr hx
  have hinstall (n : Nat) : (p'.body.install n).Plain := by
    rw [heq] at hbody
    rw [hbody]
    exact hp.install n
  have hupdate (n : Nat) : (p'.body.update n).Plain := by
    rw [heq] at hbody
    rw [hbody]
    exact hp.update n
  rw [heq]
  rcases hends with ⟨-, hclean', hback⟩ | ⟨rfl, -, -⟩
  · exact .of_clean hinstall hupdate hclean' ((hp.intact hclean).trans hback) (hback.sound hp.sound)
  · obtain ⟨ys, s₂, s'', hwrite, rfl, heq', hquiet⟩ := attempt_eq_true hrun (congrArg Prod.fst heq)
    cases heq.symm.trans heq'
    obtain ⟨r, zs, s₃, m, hwrite', hw, hquiet'⟩ := Setting.writeAll_of_unwritten hclean.settings s₁
    have hsettings := hsep.settings hrun
    have hapart := hsep.apart hrun
    cases hwrite.symm.trans hwrite'
    rw [hwrite] at hsettings hapart
    have hdone : Quiet (s₁.host.withMemory m) s'.host := hquiet'.trans hquiet
    have hcovers (x : Address) (hin : s'.host.pool.Covers x) : s₁.host.pool.Covers x :=
      (hdone.covers x).mp hin
    exact {
      install := hinstall
      update := hupdate
      clean := fun hdisabled ↦ by cases hdisabled
      layered := by
        have hbeneath : Quiet s₁.host (s'.host.withMemory s₁.host.memory) :=
          hdone.withMemory s₁.host.memory
        refine ⟨s₁.host.memory, ?_, ?_⟩
        · exact (ha.intact_left (hp.intact hclean)).intact_right hbeneath.intact
        · rw [hdone.memory]
          exact hw
      apart := hapart
      settings := fun r hr x hx hin ↦ hsettings r hr x hx (hcovers x hin)
      changes := fun c hc r hr x hx hin ↦ hsep.changes hrun c hc r hr x hx (hcovers x hin)
      sound := hdone.sound (ha.sound hp.sound) }

theorem Standing.installed (hp : p.Standing h₀ s.host)
    (hsep : p.enabled = false → p.metadata.versions.contains s.resolver.version = true →
      p.Separate s) :
    (p.install s).2.1.Standing h₀ (p.install s).2.2.host := by
  cases henabled : p.enabled with
  | true =>
      rw [Patch.install, if_pos henabled]
      exact hp
  | false =>
      have hclean := hp.clean henabled
      rw [Patch.install, if_neg (by simp [henabled]), clearLeftovers_of_nil hclean.changes]
      simp only
      split
      · rename_i hversion
        exact hp.attempt hclean (hsep henabled hversion)
      · exact .of_clean hp.install hp.update ⟨hclean.disabled, hclean.changes, hclean.settings⟩
          ((hp.intact hclean).trans (quiet_note ..).intact) hp.sound

/-! ## Updating and changing settings -/

/-- While an update writes the settings that wait, no two writes of settings overlap at any time,
and what its body records then overlaps none of them. All of it lies outside the pool. -/
structure Unobstructed (p : Patch) (s : Site) : Prop where
  apart : ∀ k, (Setting.records ((Setting.writePending p.name p.settings s).1.take k ++
    p.settings.drop k)).Pairwise UndoRecord.Disjoint
  settings : ∀ r ∈ Setting.records (Setting.writePending p.name p.settings s).1,
    r.Avoids s.host.pool.Covers
  changes : ∀ o cs s₁, (p.body.update p.updates).run (Setting.writePending p.name p.settings s).1
    [] (Setting.writePending p.name p.settings s).2 = (o, cs, s₁) →
      ∀ c ∈ cs, ∀ q ∈ c.records, q.Avoids s₁.host.pool.Covers ∧
        ∀ r ∈ Setting.records (Setting.writePending p.name p.settings s).1, r.Disjoint q

/-- A patch with one setting at most has only that to keep clear of while the pool has no page. -/
theorem unobstructed_of_lone (hsettings : p.settings.length ≤ 1) (hpool : s.host.pool = .empty)
    (hran : ((p.body.update p.updates).run (Setting.writePending p.name p.settings s).1 []
      (Setting.writePending p.name p.settings s).2).2.2.host.pool = .empty)
    (hchanges : ∀ c ∈ ((p.body.update p.updates).run (Setting.writePending p.name p.settings s).1 []
      (Setting.writePending p.name p.settings s).2).2.1, ∀ q ∈ c.records,
        ∀ r ∈ Setting.records (Setting.writePending p.name p.settings s).1,
          r.address + r.after.length ≤ q.address ∨ q.address + q.after.length ≤ r.address) :
    p.Unobstructed s where
  apart k := by
    have hsame := congrArg List.length (Setting.map_withdrawn_writePending p.name p.settings s)
    rw [List.length_map, List.length_map] at hsame
    apply Setting.pairwise_records
    rw [List.length_append, List.length_take, List.length_drop, hsame]
    omega
  settings r _ := avoids_of_empty hpool r
  changes o cs s₁ hrun c hc q hq := by
    rw [hrun] at hran hchanges
    exact ⟨avoids_of_empty hran q, fun r hr ↦ UndoRecord.disjoint_of_le (hchanges c hc q hq r hr)⟩

/-- Settings that waited are written on top of the changes. -/
theorem Standing.written (hp : p.Standing h₀ s.host) (hclear : p.Unobstructed s)
    (henabled : p.enabled = true) :
    Standing h₀ { p with settings := (Setting.writePending p.name p.settings s).1 }
      (Setting.writePending p.name p.settings s).2.host := by
  obtain ⟨g, ha, hw⟩ := hp.layered
  obtain ⟨m, hw', hquiet⟩ := Setting.writePending_rewrites p.name [] hw hclear.apart
  have hcovers (x : Address)
      (hin : (Setting.writePending p.name p.settings s).2.host.pool.Covers x) :
      s.host.pool.Covers x := (hquiet.covers x).mp hin
  have hbeneath : Quiet (s.host.withMemory g)
      ((Setting.writePending p.name p.settings s).2.host.withMemory g) := hquiet.withMemory g
  -- all settings have had their turn in the end
  have hlast := hclear.apart p.settings.length
  have hlength : (Setting.writePending p.name p.settings s).1.length = p.settings.length := by
    have hsame := congrArg List.length
      (Setting.map_withdrawn_writePending p.name p.settings s)
    rwa [List.length_map, List.length_map] at hsame
  rw [← hlength, List.take_length, hlength, List.drop_length, List.append_nil] at hlast
  exact {
    install := hp.install
    update := hp.update
    clean := fun hdisabled ↦ by cases henabled.symm.trans hdisabled
    layered := by
      refine ⟨g, ha.intact_right hbeneath.intact, ?_⟩
      rw [hquiet.memory]
      exact hw'
    apart := hlast
    settings := fun r hr x hx hin ↦ hclear.settings r hr x hx (hcovers x hin)
    changes := fun c hc r hr x hx hin ↦ hp.changes c hc r hr x hx (hcovers x hin)
    sound := hquiet.sound hp.sound }

theorem Standing.mapped_settings (hp : p.Standing h₀ h) :
    ∀ r ∈ Setting.records p.settings, ∀ x, r.Covers x → h.memory.Mapped x := by
  obtain ⟨g, -, hw⟩ := hp.layered
  exact fun r hr x hx ↦ hw.mapped_iff.mpr (hw.mapped_of_covers hr hx)

theorem Standing.mapped_changes (hp : p.Standing h₀ h) :
    ∀ c ∈ p.changes, ∀ r ∈ c.records, ∀ x, r.Covers x → h.memory.Mapped x := by
  obtain ⟨g, ha, hw⟩ := hp.layered
  exact fun c hc r hr x hx ↦ hw.mapped_iff.mpr (ha.mapped_of_covers c hc r hr x hx)

/-- Further changes are made beneath the settings. -/
theorem Standing.extend (hp : p.Standing h₀ h) (henabled : p.enabled = true) {cs : List Change}
    (ha : Change.Applies cs h h')
    (hclear : ∀ c ∈ cs, ∀ q ∈ c.records, q.Avoids h'.pool.Covers ∧
      ∀ r ∈ Setting.records p.settings, r.Disjoint q) :
    Standing h₀ { p with changes := p.changes ++ cs } h' := by
  have havoid : ∀ r ∈ Setting.records p.settings, r.Avoids h'.pool.Covers := fun r hr ↦
    ha.avoids (hp.settings r hr) (hp.mapped_settings r hr)
  have hkept : ∀ c ∈ p.changes, ∀ r ∈ c.records, r.Avoids h'.pool.Covers := fun c hc r hr ↦
    ha.avoids (hp.changes c hc r hr) (hp.mapped_changes c hc r hr)
  -- the changes are made to what lies beneath the settings, which are on top of them again then
  obtain ⟨g, ha₀, hw⟩ := hp.layered
  obtain ⟨g', ha', hw'⟩ := ha.beneath hw havoid fun r hr c hc q hq ↦ (hclear c hc q hq).2 r hr
  exact {
    install := hp.install
    update := hp.update
    clean := fun hdisabled ↦ by cases henabled.symm.trans hdisabled
    layered := ⟨g', ha₀.append ha', hw'⟩
    apart := hp.apart
    settings := havoid
    changes := List.forall_mem_append.mpr ⟨hkept, fun c hc q hq ↦ (hclear c hc q hq).1⟩
    sound := ha.sound hp.sound }

/-- Whatever keeps to the pool leaves a patch standing. -/
theorem Standing.intact_right (hp : p.Standing h₀ h) (henabled : p.enabled = true)
    (hi : Intact h h') : p.Standing h₀ h' := by
  have hsame := hp.extend henabled (.nil hi) (List.forall_mem_nil _)
  rwa [List.append_nil] at hsame

/-- As nothing of it overlaps, what an update adds counts as put there in the usual order. -/
theorem Standing.updated (hp : p.Standing h₀ s.host)
    (hclear : p.enabled = true → p.Unobstructed s) :
    (p.update s).1.Standing h₀ (p.update s).2.host := by
  cases henabled : p.enabled with
  | false =>
      rw [Patch.update, if_neg (by simp [henabled])]
      exact hp
  | true =>
      have hobstructed := hclear henabled
      have hwritten := hp.written hobstructed henabled
      rw [Patch.update, if_pos henabled]
      rcases hpending : Setting.writePending p.name p.settings s with ⟨ys, s₁⟩
      have hchanges := hobstructed.changes
      rw [hpending] at hwritten hchanges
      obtain ⟨o, cs, s₂, hrun, ha⟩ := (hp.update p.updates).run ys [] s₁ hwritten.sound
      rw [List.nil_append] at hrun
      have hclear := hchanges o cs s₂ hrun
      simp only [hrun]
      split
      · have hextended := hwritten.extend henabled ha hclear
        exact hextended.congr rfl rfl rfl rfl
      · have hr := ha.revertible fun c hc q hq ↦ (hclear c hc q hq).1
        obtain ⟨cs', h₃, hrevert, hspent, hback⟩ := hr s₂.host (.refl _)
        have hreleased := Change.releaseAll_quiet hspent h₃
        simp only [hrevert]
        have hstands := hwritten.intact_right henabled (hback.trans hreleased.intact)
        exact (hstands.quiet (quiet_note ..)).congr rfl rfl rfl rfl

/-- A change of a setting leaves its write apart from the others and from the pool. -/
theorem Standing.configured (hp : p.Standing h₀ s.host) (name : String) (v : Setting.Value)
    (hclear : p.enabled = true →
      (Setting.records (p.setSetting name v s).2.1.settings).Pairwise UndoRecord.Disjoint ∧
        ∀ r ∈ Setting.records (p.setSetting name v s).2.1.settings, r.Avoids s.host.pool.Covers) :
    (p.setSetting name v s).2.1.Standing h₀ (p.setSetting name v s).2.2.host := by
  cases hnamed : Setting.named? p.settings name with
  | none =>
      rw [setSetting_of_none hnamed]
      exact hp
  | some x =>
      obtain ⟨front, back, r, y, s', m, hsplit, heq, -, hcourse, hquiet⟩ :=
        setSetting_course hnamed v s
      rw [heq] at hclear ⊢
      have hclear' : (Setting.records (front ++ y :: back)).Pairwise UndoRecord.Disjoint ∧
          ∀ r ∈ Setting.records (front ++ y :: back), r.Avoids s.host.pool.Covers := by
        cases henabled : p.enabled with
        | true => exact hclear henabled
        | false =>
            -- nothing is written then
            rw [henabled] at hcourse
            have hsame : Setting.records (front ++ y :: back) = Setting.records p.settings := by
              rw [hsplit, Setting.records_append, Setting.records_append, Setting.records_cons,
                Setting.records_cons, hcourse.live_eq]
            rw [hsame]
            exact ⟨hp.apart, hp.settings⟩
      have hcovers (z : Address) (hin : s'.host.pool.Covers z) : s.host.pool.Covers z :=
        (hquiet.covers z).mp hin
      have hapart := hp.apart
      obtain ⟨g, ha, hw⟩ := hp.layered
      rw [hsplit] at hapart hw
      exact {
        install := hp.install
        update := hp.update
        clean := fun hdisabled ↦ by
          have hclean := hp.clean hdisabled
          have hunwritten := hclean.settings
          have hdisabled' : p.enabled = false := hdisabled
          rw [hdisabled'] at hcourse
          unfold Setting.Unwritten at hunwritten
          rw [hsplit, List.forall_mem_append, List.forall_mem_cons] at hunwritten
          obtain ⟨hfront, hx, hback⟩ := hunwritten
          exact ⟨hdisabled, hclean.changes, List.forall_mem_append.mpr
            ⟨hfront, List.forall_mem_cons.mpr ⟨hcourse.live_eq.trans hx, hback⟩⟩⟩
        layered := by
          refine ⟨g, ha.intact_right (hquiet.withMemory g).intact, ?_⟩
          rw [hquiet.memory]
          exact hcourse.rewrites_among hw hapart hclear'.1
        apart := hclear'.1
        settings := fun r hr z hz hin ↦ hclear'.2 r hr z hz (hcovers z hin)
        changes := fun c hc r hr z hz hin ↦ hp.changes c hc r hr z hz (hcovers z hin)
        sound := hquiet.sound hp.sound }

end Patch

end HotPatch
