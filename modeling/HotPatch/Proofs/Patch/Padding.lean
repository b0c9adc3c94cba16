import HotPatch.Proofs.Patch.Saved
import HotPatch.Proofs.Reports.Patch
import HotPatch.Proofs.Toml.Padding

/-!
# Saved settings that are passed over

A saved value for which a patch has no setting, or one of another type, is reported and passed over.
Any number of them may stand between the others without a difference to the patch, to its site or to
what becomes of the values around them.
-/

namespace HotPatch

/-! ## What never changes of a setting -/

namespace Setting

variable {x y : Setting} {s : Site}

theorem blank_assign {v : Value} (h : x.assign v = .ok y) : y.blank = x.blank := by
  unfold assign at h
  split at h
  · cases h
    rfl
  · cases h

theorem blank_change (x : Setting) (v : Value) (live : Bool) (s : Site) :
    (change x v live s).2.1.blank = x.blank := by
  unfold change
  cases hassign : x.assign v with
  | error e => rfl
  | ok y =>
      have hy := blank_assign hassign
      dsimp only
      split
      · have hz := blank_eq_of_withdrawn_eq (withdrawn_writeLive y s)
        generalize y.writeLive s = written at hz
        obtain ⟨e | u, z, s₁⟩ := written
        · dsimp only
          split
          · rename_i z' hback
            exact ((blank_assign hback).trans hz).trans hy
          · exact hz.trans hy
        · exact hz.trans hy
      · exact hy

theorem blank_changeFirst (name : String) (v : Value) (live : Bool) (xs : List Setting) (s : Site) :
    (changeFirst name v live xs s).2.1.map blank = xs.map blank := by
  induction xs with
  | nil => rfl
  | cons x xs ih =>
      rw [changeFirst]
      split
      · exact congrArg (· :: xs.map blank) (x.blank_change v live s)
      · exact congrArg (x.blank :: ·) ih

theorem named?_blank (xs : List Setting) (name : String) :
    named? (xs.map blank) name = (named? xs name).map blank := List.find?_map ..

end Setting

namespace Patch

variable {p p' : Patch} {s s' : Site} {es es' : List (String × Toml.Value)}
  {e : String × Toml.Value}

def outline (p : Patch) : Metadata × List Setting := (p.metadata, p.settings.map Setting.blank)

theorem outline_of_keeps (hk : p.Keeps p') : p'.outline = p.outline := by
  rw [outline, outline, hk.metadata, Setting.map_blank_eq hk.settings]

theorem outline_setSetting (p : Patch) (name : String) (v : Setting.Value) (s : Site) :
    (p.setSetting name v s).2.1.outline = p.outline := by
  have hblank := Setting.blank_changeFirst name v p.enabled p.settings s
  unfold setSetting
  generalize Setting.changeFirst name v p.enabled p.settings s = changed at hblank
  obtain ⟨e | u, settings, s₁⟩ := changed
  · exact congrArg (Prod.mk _) hblank
  · exact congrArg (Prod.mk _) hblank

theorem outline_restore (p : Patch) (saved : Section) (s : Site) :
    (p.restore saved s).1.outline = p.outline := by
  have hset : (p.restoreSettings saved.settings s).1.outline = p.outline :=
    restoreSettings_preserves (P := fun p' ↦ p'.outline = p.outline)
      (fun p' key v s' hp' ↦ (p'.outline_setSetting key v s').trans hp') rfl saved.settings s
  unfold restore
  generalize p.restoreSettings saved.settings s = restored at hset
  obtain ⟨p₁, s₁⟩ := restored
  dsimp only
  split
  · exact hset
  · exact (outline_of_keeps (p₁.touch.install_keeps s₁)).trans hset
  · exact (outline_of_keeps (p₁.touch.uninstall_keeps s₁)).trans hset

/-! ## Passing over -/

def PassesOver (p : Patch) (e : String × Toml.Value) : Prop :=
  ∀ x, Setting.named? p.settings e.1 = some x → x.kind.ofToml? e.2 = none

theorem passesOver_of_outline_eq (h : p'.outline = p.outline) (he : p.PassesOver e) :
    p'.PassesOver e := by
  intro x hx
  have hsettings : p'.settings.map Setting.blank = p.settings.map Setting.blank :=
    congrArg Prod.snd h
  have hblank : (Setting.named? p'.settings e.1).map Setting.blank =
      (Setting.named? p.settings e.1).map Setting.blank := by
    rw [← Setting.named?_blank, hsettings, Setting.named?_blank]
  rw [hx, Option.map_some] at hblank
  obtain ⟨y, hy, hsame⟩ := Option.map_eq_some_iff.mp hblank.symm
  have hkind : y.kind = x.kind := (congrArg (·.kind) hsame :)
  rw [← hkind]
  exact he y hy

theorem restoreSettings_of_passesOver (he : p.PassesOver e) (es : List (String × Toml.Value))
    (s : Site) :
    ∃ message, p.restoreSettings (e :: es) s = p.restoreSettings es (s.note .warn message) := by
  obtain ⟨key, v⟩ := e
  rw [restoreSettings]
  split
  · exact ⟨_, rfl⟩
  · rename_i x hx
    rw [he x hx]
    exact ⟨_, rfl⟩

/-- Values that are passed over make no difference to the others. -/
theorem restoreSettings_padded {P : String × Toml.Value → Prop}
    (hpadded : Toml.Padded P (fun _ v v' ↦ v' = v) es es') (hP : ∀ e, P e → p.PassesOver e)
    (hs : SameButLog s s') :
    SameButLog (p.restoreSettings es s) (p.restoreSettings es' s') := by
  induction hpadded generalizing p s s' with
  | nil => exact SameButLog.mk_iff.mpr ⟨rfl, hs⟩
  | added he _ ih =>
      obtain ⟨message, heq⟩ := restoreSettings_of_passesOver (hP _ he) _ s'
      rw [heq]
      exact ih hP (hs.site_right ..)
  | @kept key v v' es es' hsame _ ih =>
      subst hsame
      rw [restoreSettings, restoreSettings]
      split
      · exact ih hP ((hs.site_left ..).site_right ..)
      · split
        · exact ih hP ((hs.site_left ..).site_right ..)
        · rename_i x w _
          have hset := hs.map (f := fun s ↦ p.setSetting key w s) fun _ _ ↦ setSetting_atop key w
          have hkept := p.outline_setSetting key w s
          generalize p.setSetting key w s = done at hset hkept
          generalize p.setSetting key w s' = done' at hset
          obtain ⟨r, p₁, s₁⟩ := done
          obtain ⟨r', p₁', s₁'⟩ := done'
          obtain ⟨rfl, hrest⟩ := SameButLog.mk_iff.mp hset
          obtain ⟨rfl, hs₁⟩ := SameButLog.mk_iff.mp hrest
          have hP₁ (e : String × Toml.Value) (he : P e) : p₁'.PassesOver e :=
            passesOver_of_outline_eq hkept (hP e he)
          cases r' with
          | ok u => exact ih hP₁ hs₁
          | error e => exact ih hP₁ ((hs₁.site_left ..).site_right ..)

/-- Values that are passed over make no difference but to what is reported. -/
theorem restore_padded {saved saved' : Section} (henabled : saved'.enabled = saved.enabled)
    {P : String × Toml.Value → Prop}
    (hpadded : Toml.Padded P (fun _ v v' ↦ v' = v) saved.settings saved'.settings)
    (hP : ∀ e, P e → p.PassesOver e) (hs : SameButLog s s') :
    SameButLog (p.restore saved s) (p.restore saved' s') := by
  have hset := restoreSettings_padded hpadded hP hs
  unfold restore
  rw [henabled]
  generalize p.restoreSettings saved.settings s = done at hset
  generalize p.restoreSettings saved'.settings s' = done' at hset
  obtain ⟨p₁, s₁⟩ := done
  obtain ⟨p₁', s₁'⟩ := done'
  obtain ⟨rfl, hs₁⟩ := SameButLog.mk_iff.mp hset
  dsimp only
  split
  · exact hset
  · have hinstall := hs₁.map (f := p₁'.touch.install) fun _ _ ↦ install_atop
    exact (SameButLog.mk_iff.mp hinstall).2
  · have huninstall := hs₁.map (f := p₁'.touch.uninstall) fun _ _ ↦ uninstall_atop
    exact (SameButLog.mk_iff.mp huninstall).2

end Patch

end HotPatch
