import HotPatch.Proofs.Patch.Keeping
import HotPatch.Proofs.Runs
import HotPatch.Proofs.Setting.Pursuit

/-!
# No deferred write is lost

As long as a patch is enabled, each of its settings has its value in memory or waits to be written.
Installing and updating see to that whatever becomes of the host. A change of a setting and an
uninstall that breaks off do so under conditions that are told here, and only under these.
-/

namespace HotPatch

open Host

/-- Giving a setting a value leaves it behind exactly if the setting is uprooted just then. -/
theorem Setting.ChangeCourse.pursued_iff {x y : Setting} {v : Setting.Value} {s : Site}
    {r : Except SettingError Setting.Value} {m : Memory}
    (hkept : x.kind.clamp? x.value = some x.value) (hx : x.Pursued)
    (hc : ChangeCourse x v true s r y m) :
    y.Pursued ↔ ((x.kind.clamp? v).isSome → x.pending = false → ¬ x.Uprooted s) := by
  cases hc with
  | mismatch hclamp =>
      refine iff_of_true hx fun hv ↦ ?_
      rw [hclamp] at hv
      cases hv
  | stored _ hlive => cases hlive
  | @written w _ _ _ _ _ hcourse =>
      have hpursued := hcourse.pursued
      refine iff_of_true hpursued fun _ _ huprooted ↦ ?_
      have huprooted' : Uprooted { x with value := w } s := huprooted
      obtain ⟨⟨e, he⟩, -⟩ := hcourse.of_uprooted huprooted'
      cases he
  | @failed w _ _ z m hclamp _ hcourse =>
      rw [hkept]
      have hv : (x.kind.clamp? v).isSome := Option.isSome_of_eq_some hclamp
      rcases hcourse.of_failed with ⟨rfl, -⟩ | ⟨huprooted, rfl⟩
      · refine iff_of_true hx fun _ _ huprooted ↦ ?_
        have huprooted' : Uprooted { x with value := w } s := huprooted
        obtain ⟨-, hsame⟩ := hcourse.of_uprooted huprooted'
        obtain ⟨r, b, a, hlive, -⟩ := huprooted'
        have hnone : x.live = none := congrArg Setting.live hsame
        cases hnone.symm.trans hlive
      · obtain ⟨r, b, a, hlive, hbinding, -⟩ := id huprooted
        constructor
        · intro hpursued _ hpending
          rcases hpursued b hbinding with hwaits | ⟨q, hq, -⟩
          · cases hpending.symm.trans hwaits
          · cases hq
        · intro hcareful b' _
          by_contra hneither
          rw [not_or, Bool.not_eq_true] at hneither
          exact hcareful hv hneither.1 huprooted

namespace Patch

variable {p p' : Patch} {s : Site}

def Pursued (p : Patch) : Prop := p.enabled = true → ∀ x ∈ p.settings, x.Pursued

/-- Wherever an uninstall breaks off, the setting at which it does has its value in memory, and
those that are to be written again are admitted. -/
structure Recoverable (p : Patch) (s : Site) : Prop where
  settings : ∀ front x back r m, p.settings = front ++ x :: back →
    Rewrites s.host.memory ((Setting.records front).map UndoRecord.inverse) m → x.live = some r →
    ¬ r.inverse.Fits m → (∀ b, x.binding = some b → r.after = b.width.encode x.value) ∧
      Setting.AdmittedEach (front.map Setting.withdrawn) { s with host := s.host.withMemory m }
  changes : ∀ m e cs h,
    Rewrites s.host.memory ((Setting.records p.settings).map UndoRecord.inverse) m →
    Change.revertAll p.changes (s.host.withMemory m) = (.error e, cs, h) →
      Setting.AdmittedEach (p.settings.map Setting.withdrawn) { s with host := h }

/-- The call leaves no setting behind, whatever it comes to. -/
def Call.Careful : Call → Patch → Site → Prop
  | .install, _, _ => True
  | .uninstall, p, s => p.enabled = true → p.Recoverable s
  | .update, _, _ => True
  | .setSetting name v, p, s => p.enabled = true → ∀ x, Setting.named? p.settings name = some x →
    (x.kind.clamp? v).isSome → x.pending = false → ¬ x.Uprooted s

/-! ## One call -/

theorem Pursued.of_disabled (hdisabled : p.enabled = false) : p.Pursued := by
  intro henabled
  rw [hdisabled] at henabled
  cases henabled

/-- An attempt that succeeds has written all values or left them waiting. -/
theorem attempt_pursued (hdisabled : p.enabled = false) (s : Site) :
    (p.attempt s).2.1.Pursued := by
  unfold attempt
  rcases (p.body.install p.installs).run p.settings [] s with ⟨o, cs, s₁⟩
  simp only
  split
  · apply Pursued.of_disabled
    rw [(abandon_enabled ..).2]
    exact hdisabled
  · rcases hwrite : Setting.writeAll p.settings s₁ with ⟨e | u, xs, s₂⟩
    · apply Pursued.of_disabled
      rw [(abandon_enabled ..).2]
      exact hdisabled
    · exact fun _ ↦ Setting.pursued_writeAll hwrite

/-- A patch is enabled only once all of its settings are written or put off. -/
theorem install_pursued (hp : p.Pursued) (s : Site) : (p.install s).2.1.Pursued := by
  unfold Patch.install clearLeftovers
  split
  · exact hp
  · rename_i hdisabled
    rw [Bool.not_eq_true] at hdisabled
    rcases Change.revertAll p.changes s.host with ⟨e | u, cs, h⟩
    · exact .of_disabled hdisabled
    · simp only
      split
      · apply attempt_pursued
        exact hdisabled
      · exact .of_disabled hdisabled

theorem update_pursued (hp : p.Pursued) (s : Site) : (p.update s).1.Pursued := by
  obtain ⟨-, hsame, hsettings⟩ := p.update_settings s
  intro henabled
  rw [hsame] at henabled
  rw [hsettings henabled]
  exact Setting.pursued_writePending p.name (hp henabled) s

theorem setSetting_enabled (p : Patch) (name : String) (v : Setting.Value) (s : Site) :
    (p.setSetting name v s).2.1.enabled = p.enabled := by
  unfold setSetting
  split
  · rfl
  · rfl

/-- A change of a setting leaves it behind exactly if it is uprooted and does not wait. -/
theorem setSetting_pursued_iff (hkept : p.InBounds) (hp : p.Pursued) (name : String)
    (v : Setting.Value) (s : Site) :
    (p.setSetting name v s).2.1.Pursued ↔ (Call.setSetting name v).Careful p s := by
  cases henabled : p.enabled with
  | false =>
      refine iff_of_true (.of_disabled ?_) fun h ↦ ?_
      · rw [setSetting_enabled, henabled]
      · rw [henabled] at h
        cases h
  | true =>
      have hall := hp henabled
      cases hnamed : Setting.named? p.settings name with
      | none =>
          rw [setSetting_of_none hnamed]
          refine iff_of_true hp fun _ x hx ↦ ?_
          cases hnamed.symm.trans hx
      | some x =>
          obtain ⟨front, back, r, y, s', m, hsplit, heq, -, hcourse, -⟩ :=
            setSetting_course hnamed v s
          rw [hsplit, List.forall_mem_append, List.forall_mem_cons] at hall
          obtain ⟨hfront, hx, hback⟩ := hall
          rw [henabled] at hcourse
          have hy : y.Pursued ↔
              ((x.kind.clamp? v).isSome → x.pending = false → ¬ x.Uprooted s) :=
            hcourse.pursued_iff (hkept.kept x hnamed) hx
          rw [heq]
          constructor
          · intro hpursued _ z hz
            cases hnamed.symm.trans hz
            apply hy.mp
            apply hpursued henabled
            exact List.mem_append_right _ List.mem_cons_self
          · intro hcareful _
            have hy' := hy.mpr (hcareful henabled x hnamed)
            exact List.forall_mem_append.mpr ⟨hfront, List.forall_mem_cons.mpr ⟨hy', hback⟩⟩

/-- Where uninstalling stops at a setting, that one and those before it are at stake. -/
theorem undo_stops {front back : List Setting} {x : Setting} {r : UndoRecord} {m : Memory}
    (hsplit : p.settings = front ++ x :: back)
    (hw : Rewrites s.host.memory ((Setting.records front).map UndoRecord.inverse) m)
    (hlive : x.live = some r) (hstays : ¬ r.inverse.Fits m) (hall : ∀ y ∈ p.settings, y.Pursued) :
    (p.undo s).1.toBool = false ∧ ((∀ y ∈ (p.undo s).2.1.settings, y.Pursued) ↔
      (∀ b, x.binding = some b → r.after = b.width.encode x.value) ∧
        Setting.AdmittedEach (front.map Setting.withdrawn)
          { s with host := s.host.withMemory m }) := by
  obtain ⟨e, ys, s', heq, hagain⟩ := Setting.restoreEach_stops [] back hw hlive hstays
  have hundo : p.undo s = (.error (.setting e),
      { p with settings := ys ++ { x with pending := false } :: back }, s') := by
    rw [undo, Setting.restoreAll, hsplit, heq]
  have hx : Setting.Pursued { x with pending := false } ↔
      ∀ b, x.binding = some b → r.after = b.width.encode x.value := by
    constructor
    · intro hpursued b hb
      rcases hpursued b hb with hpending | ⟨q, hq, hafter⟩
      · cases hpending
      · cases hlive.symm.trans hq
        exact hafter
    · exact fun hafter b hb ↦ .inr ⟨r, hlive, hafter b hb⟩
  have hys : (∀ y ∈ ys, y.Pursued) ↔ Setting.AdmittedEach (front.map Setting.withdrawn)
      { s with host := s.host.withMemory m } := by
    rw [← Setting.pursued_writeAgain_iff]
    rw [List.reverse_nil, List.nil_append] at hagain
    rw [← hagain]
  rw [hsplit, List.forall_mem_append, List.forall_mem_cons] at hall
  rw [hundo, List.forall_mem_append, List.forall_mem_cons, hx, hys]
  refine ⟨rfl, ?_, ?_⟩
  · rintro ⟨heach, hafter, -⟩
    exact ⟨hafter, heach⟩
  · rintro ⟨hafter, heach⟩
    exact ⟨heach, hafter, hall.2.2⟩

/-- Where the changes cannot be reverted, all settings are at stake. -/
theorem undo_unreverted {m : Memory} {e : PatchError} {cs : List Change} {h : Host}
    (henabled : p.enabled = true)
    (hw : Rewrites s.host.memory ((Setting.records p.settings).map UndoRecord.inverse) m)
    (hrevert : Change.revertAll p.changes (s.host.withMemory m) = (.error e, cs, h)) :
    (p.undo s).1.toBool = false ∧ ((∀ y ∈ (p.undo s).2.1.settings, y.Pursued) ↔
      Setting.AdmittedEach (p.settings.map Setting.withdrawn) { s with host := h }) := by
  rw [← Setting.pursued_writeAll_iff, undo, Setting.restoreAll_eq_ok hw]
  simp only [uninstallChanges, hrevert, henabled, if_true]
  split
  · rename_i heq
    rw [heq]
    exact ⟨rfl, .rfl⟩
  · rename_i heq
    rw [heq]
    exact ⟨rfl, .rfl⟩

theorem undo_reverted {m : Memory} {cs : List Change} {h : Host}
    (hw : Rewrites s.host.memory ((Setting.records p.settings).map UndoRecord.inverse) m)
    (hrevert : Change.revertAll p.changes (s.host.withMemory m) = (.ok (), cs, h)) :
    (p.undo s).1.toBool = true := by
  rw [undo, Setting.restoreAll_eq_ok hw]
  simp only [uninstallChanges, hrevert]
  rfl

/-- Undoing an enabled patch either succeeds or leaves no setting behind, if it is recoverable, and
only then. -/
theorem undo_pursued_iff (henabled : p.enabled = true) (hall : ∀ y ∈ p.settings, y.Pursued)
    (s : Site) :
    ((p.undo s).1.toBool = false → ∀ y ∈ (p.undo s).2.1.settings, y.Pursued) ↔
      p.Recoverable s := by
  constructor
  · intro hpursued
    constructor
    · intro front x back r m hsplit hw hlive hstays
      obtain ⟨hfailed, hiff⟩ := undo_stops hsplit hw hlive hstays hall
      exact hiff.mp (hpursued hfailed)
    · intro m e cs h hw hrevert
      obtain ⟨hfailed, hiff⟩ := undo_unreverted henabled hw hrevert
      exact hiff.mp (hpursued hfailed)
  · intro hrecover hfailed
    rcases Setting.restores_or_stops p.settings s.host.memory with
      ⟨m, hw⟩ | ⟨front, x, back, r, m, hsplit, hw, hlive, hstays⟩
    · rcases hrevert : Change.revertAll p.changes (s.host.withMemory m) with ⟨e | u, cs, h⟩
      · apply (undo_unreverted henabled hw hrevert).2.mpr
        exact hrecover.changes m e cs h hw hrevert
      · cases hfailed.symm.trans (undo_reverted hw hrevert)
    · apply (undo_stops hsplit hw hlive hstays hall).2.mpr
      exact hrecover.settings front x back r m hsplit hw hlive hstays

theorem uninstall_eq_undo (henabled : p.enabled = true) (s : Site) :
    (p.uninstall s).1 = (p.undo s).1.toBool ∧
      (p.uninstall s).2.1.settings = (p.undo s).2.1.settings := by
  rw [Patch.uninstall, if_neg (by simp [henabled])]
  rcases p.undo s with ⟨e | u, q, s₁⟩
  · exact ⟨rfl, rfl⟩
  · exact ⟨rfl, rfl⟩

/-- An uninstall leaves a setting behind exactly if it breaks off beyond recovery. -/
theorem uninstall_pursued_iff (hp : p.Pursued) (s : Site) :
    (p.uninstall s).2.1.Pursued ↔ Call.uninstall.Careful p s := by
  cases henabled : p.enabled with
  | false =>
      refine iff_of_true (.of_disabled ?_) fun h ↦ ?_
      · rw [uninstall_enabled, henabled, Bool.false_and]
      · rw [henabled] at h
        cases h
  | true =>
      obtain ⟨hanswer, hsettings⟩ := uninstall_eq_undo henabled s
      rw [Pursued, uninstall_enabled, hsettings, hanswer, henabled, Bool.true_and,
        Bool.not_eq_true', undo_pursued_iff henabled (hp henabled) s]
      exact ⟨fun hrecover _ ↦ hrecover, fun hcareful ↦ hcareful henabled⟩

theorem Call.pursued_iff (hkept : p.InBounds) (hp : p.Pursued) (c : Call) (s : Site) :
    (c.run p s).1.Pursued ↔ c.Careful p s := by
  cases c with
  | install => exact iff_of_true (install_pursued hp s) trivial
  | uninstall => exact uninstall_pursued_iff hp s
  | update => exact iff_of_true (update_pursued hp s) trivial
  | setSetting name v => exact setSetting_pursued_iff hkept hp name v s

/-! ## Any sequence of calls -/

/-- What a patch is after a sequence of calls. Each call comes with the site as it finds it, so
between two of them the host may do what it likes. -/
def runAll : List (Call × Site) → Patch → Patch
  | [], p => p
  | (c, s) :: rest, p => runAll rest (c.run p s).1

/-- After each call of a sequence, an enabled patch has all of its values in memory or on their way,
as long as each call is careful at its turn, and not beyond the first that is not. -/
theorem pursued_iff_careful (metadata : Metadata) (b : Body) (hb : ∀ x ∈ b.settings, x.InBounds)
    (turns : List (Call × Site)) :
    (∀ front, front <+: turns → (runAll front (ofBody metadata b)).enabled = true →
        ∀ x ∈ (runAll front (ofBody metadata b)).settings, x.Pursued) ↔
      ∀ front t, front ++ [t] <+: turns →
        t.1.Careful (runAll front (ofBody metadata b)) t.2 := by
  apply forall_prefix_iff runAll (fun t p ↦ (t.1.run p t.2).1) InBounds Pursued
    fun t p ↦ t.1.Careful p t.2
  · exact fun _ ↦ rfl
  · exact fun _ _ _ ↦ rfl
  · exact fun t p hp ↦ t.1.run_inBounds hp t.2
  · exact fun t p hkept hp ↦ t.1.pursued_iff hkept hp t.2
  · exact hb
  · exact .of_disabled rfl

/-- The object appears after the patch was installed, and the next update writes the setting. -/
theorem pursued_withLevel :
    let s : Site := ⟨.new .unknown ⟨0, 0⟩, .onePage⟩
    let s₁ : Site := { s with host := (withLevel.install s).2.2.host.setDeferred 1 (some 12) }
    let turns : List (Call × Site) := [(.install, s), (.update, s₁)]
    (∀ front, front <+: turns → (runAll front withLevel).enabled = true →
        ∀ x ∈ (runAll front withLevel).settings, x.Pursued) ∧
      (runAll [(.install, s)] withLevel).settings.map (·.pending) = [true] ∧
        (runAll turns withLevel).enabled = true ∧
          (runAll turns withLevel).settings.map (·.live) = [some ⟨12, [0], [3], rfl⟩] := by
  intro s s₁ turns
  have hb : ∀ x ∈ withLevel.body.settings, x.InBounds :=
    List.forall_mem_singleton.mpr ((Setting.inBounds_int "Level" 3 0 9).bind ⟨.deferred 1, .u8⟩)
  refine ⟨(pursued_iff_careful _ _ hb turns).mpr fun front t hfront ↦ ?_, by decide +kernel,
    by decide +kernel, by decide +kernel⟩
  have hmem : t ∈ turns := hfront.subset (List.mem_append_right _ (List.mem_singleton_self t))
  rcases List.mem_pair.mp hmem with rfl | rfl
  · trivial
  · trivial

/-- The setting waits with a new value when an uninstall breaks off at it. It waits no more then,
and the next update, which would find its place as it was, leaves the old value there. -/
theorem uninstall_forgets :
    let s : Site := ⟨.new .unknown ⟨0, 0⟩, Host.onePage.setDeferred 1 (some 12)⟩
    let installed := withLevel.install s
    let s₁ : Site := { s with host := installed.2.2.host.setDeferred 1 none }
    let changed := installed.2.1.setSetting "Level" (.int 5) s₁
    let s₂ : Site := { s with host := changed.2.2.host.poke 12 [9] }
    let kept := changed.2.1.uninstall s₂
    let s₃ : Site := { s with host := (kept.2.2.host.poke 12 [3]).setDeferred 1 (some 12) }
    changed.2.1.settings.map (·.pending) = [true] ∧ kept.1 = false ∧ kept.2.1.enabled = true ∧
      (¬ ∀ x ∈ kept.2.1.settings, x.Pursued) ∧
        kept.2.1.settings.map (·.value) = [.int 5] ∧
          (kept.2.1.update s₃).2.host.memory.byte 12 = 3 := by
  intro s installed s₁ changed s₂ kept s₃
  have hforgotten : kept.2.1.settings = [{ (Setting.int "Level" 3 0 9).bind ⟨.deferred 1, .u8⟩ with
      value := .int 5
      live := some ⟨12, [0], [3], rfl⟩ }] := by decide +kernel
  refine ⟨by decide +kernel, by decide +kernel, by decide +kernel, fun hall ↦ ?_,
    by decide +kernel, by decide +kernel⟩
  rw [hforgotten, List.forall_mem_singleton] at hall
  rcases hall ⟨.deferred 1, .u8⟩ rfl with hpending | ⟨r, hr, hafter⟩
  · cases hpending
  · cases hr
    revert hafter
    decide

end Patch

end HotPatch
