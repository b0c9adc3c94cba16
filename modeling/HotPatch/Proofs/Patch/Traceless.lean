import HotPatch.Proofs.Disjoint
import HotPatch.Proofs.Patch.Edit
import HotPatch.Proofs.Patch.Program

/-!
# When a failed install leaves no trace

A failed install leaves memory as it was if each edit of the body is tidy and restoring the settings
takes back what writing them did. Neither can be done without: an edit that is not tidy spoils a
body that only writes from there on, and settings that are not taken back spoil any body.
-/

namespace HotPatch

open Host Change

namespace Patch

variable {p : Patch} {s : Site} {cs : List Change} {h h₁ : Host}

def withInstall (p : Patch) (q : Program) : Patch :=
  { p with body := { p.body with install := fun _ ↦ q } }

/-- If the attempt to install the patch fails, restoring its settings leads to memory as the body
left it. They are written only after the body succeeded. -/
def SettlesBack (p : Patch) (s : Site) : Prop :=
  match (p.body.install p.installs).run p.settings [] s with
  | (.done, _, s₁) =>
    match Setting.writeAll p.settings s₁ with
    | (.ok (), _, _) => True
    | (.error _, xs, s₂) => SameMemory s₁.host (Setting.restoreAll xs s₂).2.2.host
  | (_, _, s₁) => SameMemory s₁.host (Setting.restoreAll p.settings s₁).2.2.host

/-! ## Attempts that fail -/

/-- An attempt is undone if the settings are and the changes can be reverted. -/
theorem abandon_same (hback : SameMemory h₁ (Setting.restoreAll p.settings s).2.2.host)
    (hr : Revertible SameMemory cs h h₁) (e : PatchError) :
    ∃ p' s', p.abandon cs e s = (false, p', s') ∧ SameMemory h s'.host := by
  unfold abandon
  rcases hrestore : Setting.restoreAll p.settings s with ⟨r, xs, s₂⟩
  rw [hrestore] at hback
  have hquiet {cs' : List Change} (hspent : ∀ c ∈ cs', c.Spent) (h₂ : Host) (level : LogLevel)
      (message : String) : SameMemory h₂ (releaseAll cs' (h₂.note level message)) :=
    ((quiet_note ..).trans (releaseAll_quiet hspent _)).memory
  cases r with
  | ok u =>
      obtain ⟨cs', h₂, hrevert, hspent, hsame⟩ := hr s₂.host hback
      simp only [hrevert]
      exact ⟨_, _, rfl, tolerant_sameMemory.trans hsame (hquiet hspent ..)⟩
  | error e' =>
      obtain ⟨cs', h₂, hrevert, hspent, hsame⟩ := hr (s₂.host.note .error
        ("Failed to restore settings of " ++ p.name ++ ": " ++ e'.message)) hback
      simp only [Site.note, hrevert]
      exact ⟨_, _, rfl, tolerant_sameMemory.trans hsame (hquiet hspent ..)⟩

/-- A patch that is neither enabled nor stranded is installed by an attempt, if at all. -/
theorem install_eq_attempt (hdisabled : p.enabled = false) (hchanges : p.changes = [])
    (hversion : p.metadata.versions.contains s.resolver.version = true) :
    p.install s = p.attempt s := by
  rw [install, if_neg (by simp [hdisabled]), clearLeftovers_of_nil hchanges]
  simp only [if_pos hversion]

/-- A body that does not succeed leaves the attempt to be abandoned. -/
theorem attempt_eq_abandon {o : Outcome} {s₁ : Site} {e : PatchError}
    (hrun : (p.body.install p.installs).run p.settings [] s = (o, cs, s₁))
    (ho : o.toExcept = .error e) :
    p.attempt s = { p with installs := p.installs + 1 }.abandon cs e s₁ := by
  rw [attempt, hrun]
  simp only [ho]

/-- A failed install of tidy edits leaves no trace if the settings are taken back. -/
theorem install_same (hdisabled : p.enabled = false) (hchanges : p.changes = [])
    (hp : (p.body.install p.installs).Transacts)
    (htidy : (p.body.install p.installs).Tidy p.settings [] s) (hback : p.SettlesBack s)
    (hfailed : (p.install s).1 = false) : SameMemory s.host (p.install s).2.2.host := by
  by_cases hversion : p.metadata.versions.contains s.resolver.version = true
  · rw [install_eq_attempt hdisabled hchanges hversion] at hfailed ⊢
    obtain ⟨o, cs, s₁, hrun, hr⟩ := hp.run p.settings [] s htidy
    rw [List.nil_append] at hrun
    rw [SettlesBack, hrun] at hback
    cases o with
    | failed e =>
        obtain ⟨p', s', heq, hsame⟩ :=
          abandon_same (p := { p with installs := p.installs + 1 }) hback hr e
        rw [attempt_eq_abandon hrun rfl, heq]
        exact hsame
    | aborted message =>
        obtain ⟨p', s', heq, hsame⟩ :=
          abandon_same (p := { p with installs := p.installs + 1 }) hback hr (.aborted message)
        rw [attempt_eq_abandon hrun rfl, heq]
        exact hsame
    | done =>
        rcases hwrite : Setting.writeAll p.settings s₁ with ⟨r, xs, s₂⟩
        simp only [hwrite] at hback
        cases r with
        | ok u => simp [attempt, hrun, hwrite, Outcome.toExcept] at hfailed
        | error e =>
            obtain ⟨p', s', heq, hsame⟩ := abandon_same
              (p := { p with installs := p.installs + 1, settings := xs }) hback hr (.setting e)
            simp only [attempt, hrun, hwrite, Outcome.toExcept, heq]
            exact hsame
  · rw [install, if_neg (by simp [hdisabled]), clearLeftovers_of_nil hchanges]
    simp only [if_neg hversion]
    rfl

/-! ## Settings that are taken back -/

theorem Clean.restoreAll (hp : p.Clean) (s : Site) :
    ∃ xs, Setting.restoreAll p.settings s = (.ok (), xs, s) := by
  have hw : Rewrites s.host.memory ((Setting.records p.settings).map UndoRecord.inverse)
      s.host.memory := by
    rw [hp.settings.records_eq]
    exact .nil _
  exact ⟨_, Setting.restoreAll_eq_ok hw⟩

/-- A body that does not succeed leaves the settings alone. -/
theorem Clean.settlesBack_of_run (hp : p.Clean) {o : Outcome} {s₁ : Site} {e : PatchError}
    (hrun : (p.body.install p.installs).run p.settings [] s = (o, cs, s₁))
    (ho : o.toExcept = .error e) : p.SettlesBack s := by
  obtain ⟨xs, hrestore⟩ := hp.restoreAll s₁
  rw [SettlesBack, hrun]
  cases o with
  | done => cases ho
  | failed e =>
      simp only [hrestore]
      rfl
  | aborted message =>
      simp only [hrestore]
      rfl

/-- Settings whose writes share no byte settle back. -/
theorem Clean.settlesBack (hp : p.Clean)
    (hapart : ∀ {cs s₁}, (p.body.install p.installs).run p.settings [] s = (.done, cs, s₁) →
      (Setting.records (Setting.writeAll p.settings s₁).2.1).Pairwise UndoRecord.Disjoint) :
    p.SettlesBack s := by
  rcases hrun : (p.body.install p.installs).run p.settings [] s with ⟨o, cs, s₁⟩
  cases o with
  | failed e => exact hp.settlesBack_of_run hrun rfl
  | aborted message => exact hp.settlesBack_of_run hrun rfl
  | done =>
      rw [SettlesBack, hrun]
      obtain ⟨r, xs, s₂, m, hwrite, hw, hquiet⟩ := Setting.writeAll_of_unwritten hp.settings s₁
      have hdisjoint := hapart hrun
      rw [hwrite] at hdisjoint
      simp only [hwrite]
      cases r with
      | ok u => trivial
      | error e =>
          have hback : Rewrites s₂.host.memory ((Setting.records xs).map UndoRecord.inverse)
              s₁.host.memory := by
            rw [hquiet.memory]
            exact hw.unwinds.inOrder hdisjoint
          simp only [Setting.restoreAll_eq_ok hback]
          rfl

end Patch

/-! ## What spoils an install -/

/-- Two changes stay if the first cannot be reverted even where the second is. -/
theorem Change.revertAll_stuck {t : Transaction} {rs : List UndoRecord} {h h₂ : Host}
    (hphase : t.phase = .committed) (hnot : ¬ ∃ m, Unwinds h.memory t.records m)
    (hw : Rewrites h.memory rs h₂.memory) :
    ∃ e cs' h₃, revertAll [.writes t, .writes ⟨rs, .committed⟩] h₂ = (.error e, cs', h₃) ∧
      SameMemory h₂ h₃ := by
  have hlast : Transaction.rollback ⟨rs, .committed⟩ h₂ =
      (.ok (), ⟨rs, .rolledBack⟩, h₂.withMemory h.memory) :=
    Transaction.rollback_eq_ok (t := ⟨rs, .committed⟩) (by simp) hw.unwinds
  have hopen : t.phase ≠ .rolledBack := by simp [hphase]
  rcases Transaction.rollback_cases hopen (h₂.withMemory h.memory) with ⟨m, hu, -⟩ | ⟨-, e, hfirst⟩
  · exact absurd ⟨m, hu⟩ hnot
  · rcases Transaction.reapply_cases (t := ⟨rs, .rolledBack⟩) rfl (h₂.withMemory h.memory) with
      ⟨m, hw', hagain⟩ | ⟨hnot', -⟩
    · have hrevert : revertAll [.writes t, .writes ⟨rs, .committed⟩] h₂ = (.error (.memory e),
          [.writes t, .writes ⟨rs, .committed⟩], (h₂.withMemory h.memory).withMemory m) := by
        simp only [revertAll, List.reverse_cons, List.reverse_nil, List.nil_append,
          List.singleton_append, revertEach, revert, hlast, hfirst, reapplyEach, reapply, hagain]
      exact ⟨_, _, _, hrevert, hw'.unique hw⟩
    · exact absurd ⟨_, hw⟩ hnot'

/-- Records that cannot be undone are not all empty, so memory admits a write that is seen. -/
theorem Transaction.Begun.exists_write {m₀ : Memory} {t : Transaction} {h : Host}
    (hb : t.Begun m₀ h.memory) (hnot : ¬ ∃ m, Unwinds h.memory t.records m) :
    ∃ a b, h.memory.Admits a 1 ∧ h.memory.byte a ≠ b := by
  have hsome : ∃ r ∈ t.records, r.after ≠ [] := by
    by_contra hnone
    refine hnot ⟨h.memory, Rewrites.of_empty (fun q hq ↦ ?_) _⟩
    obtain ⟨r, hr, rfl⟩ := List.mem_map.mp hq
    have hmem := List.mem_reverse.mp hr
    have hafter : r.after = [] := by
      by_contra hne
      exact hnone ⟨r, hmem, hne⟩
    have hbefore := r.length_eq
    rw [hafter] at hbefore
    exact ⟨hafter, List.length_eq_zero_iff.mp hbefore⟩
  obtain ⟨r, hr, hafter⟩ := hsome
  have hpos := List.length_pos_iff.mpr hafter
  have hadmits : h.memory.Admits r.address r.after.length :=
    (hb.rooted.admits r hr).of_page_eq fun _ _ _ ↦ by rw [hb.rooted.page_eq]
  refine ⟨r.address, if h.memory.byte r.address = 0 then 1 else 0, hadmits.mono hpos, ?_⟩
  split
  · rename_i hzero
    rw [hzero]
    decide
  · assumption

/-- After an edit that cannot be undone, some plain edit leads away from where it began. -/
theorem Transaction.Begun.exists_edit {m₀ : Memory} {t : Transaction} {h : Host}
    (hb : t.Begun m₀ h.memory) (hnot : ¬ ∃ m, Unwinds h.memory t.records m) :
    ∃ e : Edit, e.Plain ∧ ∃ rs h', e.run .empty h = (.done, ⟨rs, .active⟩, h') ∧
      Rewrites h.memory rs h'.memory ∧ h'.memory ≠ m₀ := by
  by_cases hsame : h.memory = m₀
  · obtain ⟨a, b, hadmits, hne⟩ := hb.exists_write hnot
    obtain ⟨hfit, message, heq⟩ := Transaction.write_eq_ok .empty [b] hadmits
    refine ⟨.write (.bytes a [b]) fun _ ↦ .done, fun _ ↦ trivial, _,
      (h.withMemory ((UndoRecord.ofWrite h.memory a [b]).onto h.memory)).note .debug message,
      ?_, .single hfit, ?_⟩
    · rw [Edit.run, Transaction.perform, heq]
      rfl
    · intro hback
      have hbyte : (h.memory.store a [b]).byte a = b := by simp [Memory.byte_store]
      rw [show h.memory.store a [b] = h.memory from hback.trans hsame.symm] at hbyte
      exact hne hbyte
  · exact ⟨.done, trivial, [], h, rfl, .nil _, hsame⟩

namespace Patch

variable {p : Patch} {s s₁ : Site} {cs : List Change} {q : Program} {o : Outcome} {e : PatchError}

def Traced (h h' : Host) : Prop :=
  ∃ x, h.memory.Readable x ∧ h'.memory.byte x ≠ h.memory.byte x

def Traceless (p : Patch) (s : Site) : Prop :=
  (p.install s).1 = false → ¬ Traced s.host (p.install s).2.2.host

/-- With another program that does not succeed, the attempt is abandoned. -/
theorem install_eq_abandon (hdisabled : p.enabled = false) (hchanges : p.changes = [])
    (hversion : p.metadata.versions.contains s.resolver.version = true)
    (hrun : q.run p.settings [] s = (o, cs, s₁)) (ho : o.toExcept = .error e) :
    (p.withInstall q).install s =
      { p.withInstall q with installs := p.installs + 1 }.abandon cs e s₁ := by
  rw [install_eq_attempt (p := p.withInstall q) hdisabled hchanges hversion]
  exact attempt_eq_abandon hrun ho

theorem Clean.abandon_nil (hp : p.Clean) (e : PatchError) :
    ∃ p' s', p.abandon [] e s = (false, p', s') ∧ SameMemory s.host s'.host := by
  obtain ⟨xs, hrestore⟩ := hp.restoreAll s
  have hback : SameMemory s.host (Setting.restoreAll p.settings s).2.2.host := by
    rw [hrestore]
    rfl
  exact abandon_same hback (.nil rfl tolerant_sameMemory) e

/-- An attempt whose changes cannot be reverted leaves what its body left. -/
theorem Clean.abandon_stuck (hp : p.Clean) {e r : PatchError} {cs' : List Change} {h : Host}
    (hrevert : revertAll cs s.host = (.error r, cs', h)) (hsame : SameMemory s.host h) :
    ∃ p' s', p.abandon cs e s = (false, p', s') ∧ SameMemory s.host s'.host := by
  obtain ⟨xs, hrestore⟩ := hp.restoreAll s
  unfold abandon
  rw [hrestore]
  simp only [hrevert]
  exact ⟨_, _, rfl, hsame⟩

/-- What an abandoned attempt leaves can be seen if what its body left can. -/
theorem Clean.install_traced_of_run (hp : p.Clean)
    (hversion : p.metadata.versions.contains s.resolver.version = true)
    (hrun : q.run p.settings [] s = (o, cs, s₁)) (ho : o.toExcept = .error e)
    (hkept : ∀ p : Patch, p.Clean →
      ∃ p' s', p.abandon cs e s₁ = (false, p', s') ∧ SameMemory s₁.host s'.host)
    (htraced : Traced s.host s₁.host) :
    (p.withInstall q).SettlesBack s ∧ ¬ (p.withInstall q).Traceless s := by
  have hclean : (p.withInstall q).Clean := ⟨hp.disabled, hp.changes, hp.settings⟩
  have heq := install_eq_abandon hp.disabled hp.changes hversion hrun ho
  obtain ⟨p', s', habandon, hsame⟩ := hkept { p.withInstall q with installs := p.installs + 1 }
    ⟨hp.disabled, hp.changes, hp.settings⟩
  refine ⟨hclean.settlesBack_of_run hrun ho, fun htraceless ↦ ?_⟩
  rw [Traceless, heq, habandon, Traced, hsame] at htraceless
  exact htraceless rfl htraced

/-- An edit that is not tidy makes some install fail and leave a trace, although the body only
writes from there on. -/
theorem Clean.install_traced (hp : p.Clean)
    (hversion : p.metadata.versions.contains s.resolver.version = true) {e : Edit}
    (he : e.Undisturbed) (huntidy : ¬ e.Tidy s.host) :
    ∃ rest, (∀ r, (rest r).Transacts ∧ (rest r).Plain) ∧
      (p.withInstall (.transaction e rest)).SettlesBack s ∧
      ¬ (p.withInstall (.transaction e rest)).Traceless s := by
  have hbegun := he.run (t := .empty) (h := s.host) (.empty s.host.memory)
  rcases hrun : e.run .empty s.host with ⟨o, t, h₁⟩
  rw [hrun] at hbegun
  cases o with
  | failed e' =>
      obtain ⟨h', htransact, hroot, hiff⟩ := Program.transact_failed he hrun []
      refine ⟨fun _ ↦ .fail e', fun _ ↦ ⟨trivial, trivial⟩, ?_⟩
      have hbody : (Program.transaction e fun _ ↦ .fail e').run p.settings [] s =
          (.failed e', [], { s with host := h' }) := by
        rw [Program.run, htransact]
        rfl
      exact hp.install_traced_of_run hversion hbody rfl (fun _ hp ↦ hp.abandon_nil e')
        (hroot.exists_byte fun hback ↦ huntidy (hiff.mp hback))
  | aborted message =>
      obtain ⟨h', htransact, hroot, hiff⟩ := Program.transact_aborted he hrun []
      refine ⟨fun _ ↦ .done, fun _ ↦ ⟨trivial, trivial⟩, ?_⟩
      have hbody : (Program.transaction e fun _ ↦ .done).run p.settings [] s =
          (.aborted message, [], { s with host := h' }) := by
        rw [Program.run, htransact]
      exact hp.install_traced_of_run hversion hbody rfl (fun _ hp ↦ hp.abandon_nil _)
        (hroot.exists_byte fun hback ↦ huntidy (hiff.mp hback))
  | done =>
      rw [Edit.Tidy, hrun] at huntidy
      obtain ⟨e₂, he₂, rs, h₂, hrun₂, hw, hne⟩ := hbegun.exists_edit huntidy
      refine ⟨fun _ ↦ .transaction e₂ fun _ ↦ .fail (.aborted none), fun _ ↦ ?_, ?_⟩
      · exact ⟨⟨he₂.undisturbed, fun _ ↦ trivial⟩, he₂, fun _ ↦ trivial⟩
      · have hbody : (Program.transaction e fun _ ↦ .transaction e₂ fun _ ↦
            .fail (.aborted none)).run p.settings [] s =
              (.failed (.aborted none), [.writes t.commit, .writes ⟨rs, .committed⟩],
                { s with host := h₂ }) := by
          simp only [Program.run, Program.transact, hrun, hrun₂]
          rfl
        obtain ⟨r, cs', h₃, hrevert, hstuck⟩ := revertAll_stuck (t := t.commit) rfl huntidy hw
        exact hp.install_traced_of_run hversion hbody rfl
          (fun _ hp ↦ hp.abandon_stuck (s := { s with host := h₂ }) hrevert hstuck)
          ((hbegun.rooted.writes hw).exists_byte hne)

/-- Settings that are not taken back leave a trace of an install whose body does nothing. -/
theorem install_unsettled (hdisabled : p.enabled = false) (hchanges : p.changes = [])
    (hversion : p.metadata.versions.contains s.resolver.version = true)
    (hq : q = .done ∨ ∃ e, q = .fail e) (hnot : ¬ (p.withInstall q).SettlesBack s) :
    ∃ p' s', (p.withInstall q).install s = (false, p', s') ∧ ¬ SameMemory s.host s'.host := by
  have hkept (p : Patch) (s₁ : Site) (e : PatchError) :
      ∃ p' s', p.abandon [] e s₁ = (false, p', s') ∧
        SameMemory (Setting.restoreAll p.settings s₁).2.2.host s'.host :=
    abandon_same rfl (.nil rfl tolerant_sameMemory) e
  rcases hq with rfl | ⟨e, rfl⟩
  · rcases hwrite : Setting.writeAll p.settings s with ⟨r, xs, s₂⟩
    simp only [SettlesBack, withInstall, Program.run, hwrite] at hnot
    cases r with
    | ok u => exact absurd trivial hnot
    | error e =>
        obtain ⟨p', s', heq, hsame⟩ := hkept
          { p.withInstall .done with installs := p.installs + 1, settings := xs } s₂ (.setting e)
        refine ⟨p', s', ?_, fun hback ↦ hnot (hsame.symm.trans hback)⟩
        rw [install_eq_attempt (p := p.withInstall .done) hdisabled hchanges hversion, ← heq]
        simp only [attempt, withInstall, Program.run, Outcome.toExcept, hwrite]
  · have hrun : (Program.fail e).run p.settings [] s = (.failed e, [], s) := rfl
    obtain ⟨p', s', heq, hsame⟩ :=
      hkept { p.withInstall (.fail e) with installs := p.installs + 1 } s e
    refine ⟨p', s', (install_eq_abandon hdisabled hchanges hversion hrun rfl).trans heq, ?_⟩
    intro hback
    exact hnot (hsame.symm.trans hback)

/-- An edit is tidy exactly if no install that starts with it and only writes from there on leaves
a trace of a failure. -/
theorem Clean.tidy_iff (hp : p.Clean)
    (hversion : p.metadata.versions.contains s.resolver.version = true) {e : Edit}
    (he : e.Undisturbed) :
    e.Tidy s.host ↔ ∀ rest, (∀ r, (rest r).Transacts ∧ (rest r).Plain) →
      (p.withInstall (.transaction e rest)).SettlesBack s →
      (p.withInstall (.transaction e rest)).Traceless s := by
  constructor
  · intro htidy rest hrest hback hfailed
    have hbody : (Program.transaction e rest).Tidy p.settings [] s := by
      rw [Program.Tidy]
      refine ⟨htidy, ?_⟩
      split
      · exact (hrest _).2.tidy (hrest _).1 _ _ _
      · exact (hrest _).2.tidy (hrest _).1 _ _ _
      · trivial
    have hsame := install_same (p := p.withInstall (.transaction e rest)) hp.disabled hp.changes
      ⟨he, fun r ↦ (hrest r).1⟩ hbody hback hfailed
    rintro ⟨x, -, hne⟩
    rw [hsame] at hne
    exact hne rfl
  · intro hall
    by_contra huntidy
    obtain ⟨rest, hrest, hback, htraced⟩ := hp.install_traced hversion he huntidy
    exact htraced (hall rest hrest hback)

/-- The patch is neither enabled nor stranded, and its transactions commit and roll back as they
like. If each edit is tidy and the settings are taken back, a failed install leaves memory as it
was. Both conditions are exact: an edit is tidy if and only if no install that starts with it and
only writes from there on fails and leaves a byte changed; settings are taken back if and only if an
install whose body does nothing leaves memory as it was when it fails. -/
theorem install_traceless (p : Patch) (s : Site) (hdisabled : p.enabled = false)
    (hchanges : p.changes = []) :
    ((p.body.install p.installs).Transacts →
        (p.body.install p.installs).Tidy p.settings [] s → p.SettlesBack s →
        (p.install s).1 = false → (p.install s).2.2.host.memory = s.host.memory) ∧
      (p.metadata.versions.contains s.resolver.version = true →
        (∀ e : Edit, Setting.Unwritten p.settings → e.Undisturbed →
          (e.Tidy s.host ↔ ∀ rest, (∀ r, (rest r).Transacts ∧ (rest r).Plain) →
            (p.withInstall (.transaction e rest)).SettlesBack s →
            (p.withInstall (.transaction e rest)).Traceless s)) ∧
        ∀ q : Program, (q = .done ∨ ∃ e, q = .fail e) →
          ((p.withInstall q).SettlesBack s ↔
            (((p.withInstall q).install s).1 = false →
              ((p.withInstall q).install s).2.2.host.memory = s.host.memory))) := by
  refine ⟨?_, fun hversion ↦ ⟨?_, ?_⟩⟩
  · intro hp htidy hback hfailed
    exact install_same hdisabled hchanges hp htidy hback hfailed
  · intro e hsettings he
    exact Clean.tidy_iff ⟨hdisabled, hchanges, hsettings⟩ hversion he
  · intro q hq
    constructor
    · intro hback hfailed
      refine install_same (p := p.withInstall q) hdisabled hchanges ?_ ?_ hback hfailed
      · rcases hq with rfl | ⟨e, rfl⟩ <;> trivial
      · rcases hq with rfl | ⟨e, rfl⟩ <;> trivial
    · intro hsame
      by_contra hnot
      obtain ⟨p', s', heq, hne⟩ := install_unsettled hdisabled hchanges hversion hq hnot
      rw [heq] at hsame
      exact hne (hsame rfl)

/-- On one page: a write that fails is taken back; a write that is committed before the body breaks
off makes an edit untidy, and two settings at one address are not taken back. -/
theorem install_traceless_onePage :
    let s : Site := ⟨.new .unknown ⟨0, 0⟩, .onePage⟩
    let p (e : Edit) : Patch :=
      .ofBody (.named "") (.ofProgram [] (.transaction e (Program.after .done)))
    let write (next : Edit) : Edit := .write (.bytes 0 [170]) fun _ ↦ next
    let x (a : Address) : Setting := (Setting.bool "" true).bind ⟨.fixed a, .u8⟩
    let q : Patch := .ofBody (.named "") (.ofProgram [x 0, x 0, x pageSize] .done)
    (((p (write (.fail (.other "")))).install s).1 = false ∧
        ((p (write (.fail (.other "")))).install s).2.2.host.memory = s.host.memory) ∧
      (¬ ∀ rest, (∀ r, (rest r).Transacts ∧ (rest r).Plain) →
        ((p .done).withInstall (.transaction (write (.commit (.abort none))) rest)).SettlesBack s →
        ((p .done).withInstall (.transaction (write (.commit (.abort none))) rest)).Traceless s) ∧
      (q.install s).1 = false ∧ (q.install s).2.2.host.memory ≠ s.host.memory := by
  intro s p write x q
  have hclean (e : Edit) : (p e).Clean := ⟨rfl, rfl, fun _ hy ↦ nomatch hy⟩
  have hfailed : ((p (write (.fail (.other "")))).install s).1 = false := by decide
  refine ⟨⟨hfailed, ?_⟩, ?_, ?_⟩
  · have hwrites : (write (.fail (.other ""))).Plain := fun _ ↦ trivial
    have hplain : (Program.transaction (write (.fail (.other ""))) (Program.after .done)).Plain :=
      ⟨hwrites, fun r ↦ by cases r <;> trivial⟩
    have hp : (Program.transaction (write (.fail (.other ""))) (Program.after .done)).Transacts :=
      ⟨hwrites.undisturbed, fun r ↦ by cases r <;> trivial⟩
    exact (install_traceless (p _) s rfl rfl).1 hp (hplain.tidy hp _ _ _)
      ((hclean _).settlesBack fun _ ↦ .nil) hfailed
  · have huntidy : ¬ (write (.commit (.abort none))).Tidy s.host := by
      rintro (hsame | hactive)
      · have hbyte := congrArg (fun m : Memory ↦ m.byte 0) hsame
        revert hbyte
        decide
      · cases hactive
    have hexact := ((install_traceless (p .done) s rfl rfl).2 (by decide)).1
      (write (.commit (.abort none))) (hclean .done).settings (fun _ ↦ trivial)
    exact mt hexact.mpr huntidy
  · have hnot : ¬ (q.withInstall .done).SettlesBack s := by
      intro hback
      dsimp only [q, x, s] at hback
      have hsame : SameMemory _ _ := hback
      have hbyte := congrArg (fun m : Memory ↦ m.byte 0) hsame
      revert hbyte
      decide
    have hexact := ((install_traceless q s rfl rfl).2 (by decide)).2 .done (.inl rfl)
    exact Classical.not_imp.mp (mt hexact.mpr hnot)

/-- A write that is committed before the body breaks off stays, although the patch is neither
enabled nor has anything recorded. -/
theorem install_keeps_committed :
    let s : Site := ⟨.new .unknown ⟨0, 0⟩, .onePage⟩
    let e : Edit := .write (.bytes 0 [170]) (Edit.after (.commit (.abort (some "boom"))))
    let p : Patch := .ofBody (.named "A") (.ofProgram [] (.transaction e (Program.after .done)))
    (p.enabled = false ∧ p.changes = []) ∧
      (p.install s).1 = false ∧ (p.install s).2.1.changes = [] ∧
        s.host.memory.byte 0 = 0 ∧ (p.install s).2.2.host.memory.byte 0 = 170 := by
  intro s e p
  exact ⟨⟨rfl, rfl⟩, by decide, by decide, by decide, by decide⟩

end Patch

end HotPatch
