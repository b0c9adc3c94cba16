import HotPatch.Proofs.Patch.Program
import HotPatch.Proofs.Patch.Undoing
import HotPatch.Proofs.Setting.Bounds

/-!
# Changing a setting of an enabled patch

A value that cannot be written is not stored either. The one thing that a refused change can still
do to memory is to take back a write from where its setting was bound before.
-/

namespace HotPatch

open Host

variable {s s' : Site}

namespace Setting

variable {x y : Setting} {m : Memory}

/-- The write in memory can be taken back, but where the setting has moved to it cannot be made. -/
def Uprooted (x : Setting) (s : Site) : Prop :=
  ∃ r b a, x.live = some r ∧ x.binding = some b ∧ (b.locate s).1 = some a ∧ r.address ≠ a ∧
    r.inverse.Fits s.host.memory ∧ ¬ s.host.memory.Admits a b.width.length

/-- A write that fails leaves everything alone, unless the setting has moved: its old write is taken
back by then. -/
theorem LiveCourse.of_failed {e : SettingError} (hc : LiveCourse x s (.error e) y m) :
    y = x ∧ m = s.host.memory ∨ x.Uprooted s ∧ y = { x with live := none } := by
  cases hc with
  | @failed b a e live m hbinding hplace hcourse =>
      cases hlive : x.live with
      | none =>
          rw [hlive] at hcourse
          cases hcourse with
          | unplaced _ hback _ =>
              cases hback
              exact .inl ⟨by rw [← hlive], rfl⟩
      | some r =>
          rw [hlive] at hcourse
          cases hcourse with
          | unplaced haway hback hrefused =>
              rw [Width.length_encode] at hrefused
              cases hback with
              | cons hfit _ =>
                  exact .inr ⟨⟨r, b, a, hlive, hbinding, hplace, haway r rfl, hfit, hrefused⟩, rfl⟩
          | held => exact .inl ⟨by rw [← hlive], rfl⟩
          | kept => exact .inl ⟨by rw [← hlive], rfl⟩

/-- Of an uprooted setting nothing is left in memory. -/
theorem LiveCourse.of_uprooted {r : Except SettingError Bool} (hx : x.Uprooted s)
    (hc : LiveCourse x s r y m) : (∃ e, r = .error e) ∧ y = { x with live := none } := by
  obtain ⟨q, b, a, hlive, hbinding, hplace, haway, hfit, hrefused⟩ := hx
  rw [← Width.length_encode b.width x.value] at hrefused
  cases hc with
  | unbound hnone => cases hnone.symm.trans hbinding
  | adrift hbinding' hnowhere =>
      cases hbinding'.symm.trans hbinding
      cases hnowhere.symm.trans hplace
  | written hbinding' hplace' hcourse =>
      cases hbinding'.symm.trans hbinding
      cases hplace'.symm.trans hplace
      rw [hlive] at hcourse
      cases hcourse with
      | placed _ hback haddress hafter hfit' =>
          refine absurd ?_ hrefused
          rw [← hback.admits_iff, ← haddress, ← hafter, ← UndoRecord.length_eq]
          exact hfit'.admits
      | renewed haddress => exact absurd haddress haway
  | failed hbinding' hplace' hcourse =>
      cases hbinding'.symm.trans hbinding
      cases hplace'.symm.trans hplace
      rw [hlive] at hcourse
      cases hcourse with
      | unplaced => exact ⟨⟨_, rfl⟩, rfl⟩
      | held _ hstays => exact absurd hfit hstays
      | kept haddress => exact absurd haddress haway

/-- What a refused change does to a setting and to memory. -/
theorem ChangeCourse.of_failed (hx : x.kind.clamp? x.value = some x.value) {v : Value}
    {live : Bool} {e : SettingError} (hc : ChangeCourse x v live s (.error e) y m) :
    y = x ∧ m = s.host.memory ∨ live = true ∧ (x.kind.clamp? v).isSome ∧ x.Uprooted s ∧
      y = { x with live := none } := by
  cases hc with
  | mismatch => exact .inl ⟨rfl, rfl⟩
  | failed hclamp hlive hcourse =>
      rw [hx]
      rcases hcourse.of_failed with ⟨rfl, rfl⟩ | ⟨huprooted, rfl⟩
      · exact .inl ⟨rfl, rfl⟩
      · exact .inr ⟨hlive, Option.isSome_of_eq_some hclamp, huprooted, rfl⟩

theorem ChangeCourse.of_uprooted {v : Value} {r : Except SettingError Value}
    (hv : (x.kind.clamp? v).isSome) (hx : x.Uprooted s) (hc : ChangeCourse x v true s r y m) :
    (∃ e, r = .error e) ∧ y.live = none := by
  cases hc with
  | mismatch hclamp =>
      rw [hclamp] at hv
      cases hv
  | stored _ hlive => cases hlive
  | @written w _ _ _ _ _ hcourse =>
      have hx' : Uprooted { x with value := w } s := hx
      obtain ⟨⟨e, he⟩, -⟩ := hcourse.of_uprooted hx'
      cases he
  | @failed w _ _ _ _ _ _ hcourse =>
      have hx' : Uprooted { x with value := w } s := hx
      obtain ⟨-, rfl⟩ := hcourse.of_uprooted hx'
      exact ⟨⟨_, rfl⟩, rfl⟩

end Setting

namespace Patch

variable {p : Patch} {name : String} {v : Setting.Value}

theorem setSetting_of_none (hnone : Setting.named? p.settings name = none) (v : Setting.Value)
    (s : Site) : p.setSetting name v s = (.error (.unknownSetting name), p, s) := by
  rw [setSetting, Setting.changeFirst_of_none hnone]

theorem named?_replaced {front : List Setting} {x y : Setting}
    (hfront : ∀ z ∈ front, z.name ≠ name) (hx : x.name = name) (hname : y.name = x.name)
    (back : List Setting) :
    Setting.named? (front ++ y :: back) name = some y :=
  Setting.named?_eq_some_iff.mpr ⟨hname.trans hx, front, back, rfl, hfront⟩

/-- The setting that is asked for changes, in its place, and the others stay. -/
theorem setSetting_course {x : Setting} (hx : Setting.named? p.settings name = some x)
    (v : Setting.Value) (s : Site) :
    ∃ front back r y s' m, p.settings = front ++ x :: back ∧
      p.setSetting name v s = (r, { p with settings := front ++ y :: back }, s') ∧
      Setting.named? (front ++ y :: back) name = some y ∧
      x.ChangeCourse v p.enabled s r y m ∧ Quiet (s.host.withMemory m) s'.host := by
  obtain ⟨hname, front, back, hsplit, hfront⟩ := Setting.named?_eq_some_iff.mp hx
  obtain ⟨r, y, s', m, heq, hcourse, hquiet⟩ := Setting.change_course x v p.enabled s
  have hchange := Setting.changeFirst_append hfront hname heq back
  have hsame : y.name = x.name := by
    cases hcourse with
    | mismatch => rfl
    | stored => rfl
    | written _ _ hlive => exact (Setting.fields_of_withdrawn_eq hlive.withdrawn_eq).1
    | failed _ _ hlive => exact (Setting.fields_of_withdrawn_eq hlive.withdrawn_eq).1
  have hnamed := named?_replaced hfront hname hsame back
  unfold setSetting
  rw [hsplit, hchange]
  cases r with
  | error e => exact ⟨front, back, _, y, s', m, rfl, rfl, hnamed, hcourse, hquiet⟩
  | ok w =>
      exact ⟨front, back, _, y, _, m, rfl, rfl, hnamed, hcourse, hquiet.trans (quiet_note ..)⟩

def stored (p : Patch) (name : String) : Option (Setting.Value × Option UndoRecord) :=
  (Setting.named? p.settings name).map fun x ↦ (x.value, x.live)

/-- That a setting is changed without fail, or stays with all of memory what it is, takes exactly
that an enabled patch has not uprooted it. Then a failure leaves all of the patch as it is. -/
theorem setSetting_failed_iff (p : Patch) (name : String) (v : Setting.Value) (s : Site)
    (hkept : ∀ x, Setting.named? p.settings name = some x →
      x.kind.clamp? x.value = some x.value) :
    let settled : Prop := p.enabled = true → ∀ x, Setting.named? p.settings name = some x →
      (x.kind.clamp? v).isSome → ¬ x.Uprooted s
    ((∀ e p' s', p.setSetting name v s = (.error e, p', s') →
        (∀ a, s'.host.memory.byte a = s.host.memory.byte a) ∧ p'.stored name = p.stored name) ↔
      settled) ∧
    (settled → ∀ e p' s', p.setSetting name v s = (.error e, p', s') →
      p' = p ∧ s'.host.memory = s.host.memory) := by
  intro settled
  have hstays (hsettled : settled) (e : SettingError) (p' : Patch) (s' : Site)
      (hfailed : p.setSetting name v s = (.error e, p', s')) :
      p' = p ∧ s'.host.memory = s.host.memory := by
    cases hnamed : Setting.named? p.settings name with
    | none =>
        rw [setSetting_of_none hnamed] at hfailed
        cases hfailed
        exact ⟨rfl, rfl⟩
    | some x =>
        obtain ⟨front, back, r, y, s₁, m, hsplit, heq, -, hcourse, hquiet⟩ :=
          setSetting_course hnamed v s
        rw [heq] at hfailed
        cases hfailed
        rcases hcourse.of_failed (hkept x hnamed) with ⟨rfl, rfl⟩ | ⟨henabled, hv, huprooted, -⟩
        · rw [← hsplit]
          exact ⟨rfl, hquiet.memory⟩
        · exact absurd huprooted (hsettled henabled x hnamed hv)
  refine ⟨⟨fun hnothing henabled x hx hv huprooted ↦ ?_, fun hsettled e p' s' hfailed ↦ ?_⟩, hstays⟩
  · obtain ⟨front, back, r, y, s₁, m, hsplit, heq, hnamed, hcourse, -⟩ :=
      setSetting_course hx v s
    rw [henabled] at hcourse
    obtain ⟨⟨e, rfl⟩, hnone⟩ := hcourse.of_uprooted hv huprooted
    -- the write is forgotten, and it was there before
    have hsame := (hnothing e _ s₁ heq).2
    obtain ⟨q, -, -, hlive, -⟩ := huprooted
    simp [stored, hx, hnamed, hlive, hnone] at hsame
  · obtain ⟨rfl, hmemory⟩ := hstays hsettled e p' s' hfailed
    exact ⟨fun a ↦ by rw [hmemory], rfl⟩

def withLevel : Patch :=
  .ofBody (.named "A") (.ofProgram [(Setting.int "Level" 3 0 9).bind ⟨.deferred 1, .u8⟩] .done)

/-- The host writes over the byte of the setting, which is then refused another value. -/
theorem setSetting_failed_poked :
    let s : Site := ⟨.new .unknown ⟨0, 0⟩, Host.onePage.setDeferred 1 (some 12)⟩
    let installed := withLevel.install s
    let s₁ : Site := { installed.2.2 with host := installed.2.2.host.poke 12 [204] }
    let r := installed.2.1.setSetting "Level" (.int 5) s₁
    installed.1 = true ∧ r.1.toBool = false ∧ r.2.1.stored "Level" = installed.2.1.stored "Level" ∧
      r.2.2.host.memory = s₁.host.memory := by
  intro s installed s₁ r
  let x : Setting := { (Setting.int "Level" 3 0 9).bind ⟨.deferred 1, .u8⟩ with
    live := some ⟨12, [0], [3], rfl⟩ }
  have hnamed : Setting.named? installed.2.1.settings "Level" = some x := by decide +kernel
  have hkept : ∀ y, Setting.named? installed.2.1.settings "Level" = some y →
      y.kind.clamp? y.value = some y.value := by
    intro y hy
    cases hnamed.symm.trans hy
    rfl
  have hfailed : r.1.toBool = false := by decide +kernel
  obtain ⟨e, he⟩ : ∃ e, r.1 = .error e := by
    cases hr : r.1 with
    | error e => exact ⟨e, rfl⟩
    | ok w =>
        rw [hr] at hfailed
        cases hfailed
  have hstays := (setSetting_failed_iff installed.2.1 "Level" (.int 5) s₁ hkept).2
  obtain ⟨hsame, hmemory⟩ := hstays (by
    intro _ y hy _ huprooted
    cases hnamed.symm.trans hy
    obtain ⟨q, b, a, hlive, hbinding, hplace, haway, -⟩ := huprooted
    cases hlive
    cases hbinding
    have hcell : (Setting.Binding.locate ⟨.deferred 1, .u8⟩ s₁).1 = some 12 := by decide +kernel
    cases hcell.symm.trans hplace
    exact haway rfl) e r.2.1 r.2.2 (by rw [← he])
  exact ⟨by decide +kernel, hfailed, by rw [hsame], hmemory⟩

/-- The object moves to where nothing is mapped. What the setting wrote at its old place is taken
back, although the change is refused. -/
theorem setSetting_uproots :
    let s : Site := ⟨.new .unknown ⟨0, 0⟩, Host.onePage.setDeferred 1 (some 12)⟩
    let installed := withLevel.install s
    let s₁ : Site :=
      { installed.2.2 with host := installed.2.2.host.setDeferred 1 (some 4096) }
    let r := installed.2.1.setSetting "Level" (.int 5) s₁
    installed.2.1.enabled = true ∧ r.1.toBool = false ∧ s₁.host.memory.byte 12 = 3 ∧
      r.2.2.host.memory.byte 12 = 0 ∧
        installed.2.1.stored "Level" = some (.int 3, some ⟨12, [0], [3], rfl⟩) ∧
          r.2.1.stored "Level" = some (.int 3, none) := by
  intro s installed s₁ r
  exact ⟨by decide +kernel, by decide +kernel, by decide +kernel, by decide +kernel,
    by decide +kernel, by decide +kernel⟩

end Patch

end HotPatch
