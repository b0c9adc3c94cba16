import HotPatch.Proofs.Ledger.Setting
import HotPatch.Proofs.Setting.Course

/-!
# Values within bounds

A value that was brought within bounds once stays what it is when that is done again. So a setting
can be given back the value that it had, and writing and restoring change nothing of a setting but
its write and whether it waits.
-/

namespace HotPatch

open Host

namespace Setting

variable {x y : Setting} {xs ys done : List Setting} {s s' : Site} {h : Host} {m : Memory}
  {v w : Value} {live : Bool}

/-! ## Kinds -/

/-- To bring a value within bounds twice is to do it once. -/
def Kind.Stable (k : Kind) : Prop := ∀ v w, k.clamp? v = some w → k.clamp? w = some w

namespace Kind

theorem stable_bool : Kind.bool.Stable := by
  intro v w hclamp
  cases v with
  | bool b =>
      cases hclamp
      rfl
  | _ => cases hclamp

theorem stable_int (lo hi : Int) : (Kind.int lo hi).Stable := by
  intro v w hclamp
  cases v with
  | int i =>
      cases hclamp
      simp only [clamp?, Option.some.injEq, Value.int.injEq]
      omega
  | _ => cases hclamp

theorem stable_choice (options : List String) : (Kind.choice options).Stable := by
  intro v w hclamp
  cases v with
  | choice i =>
      cases hclamp
      simp only [clamp?, Option.some.injEq, Value.choice.injEq]
      exact Nat.min_eq_left (Nat.min_le_right _ _)
  | _ => cases hclamp

theorem clampFloat_of_not_nan {lo hi z : Double} (hz : z.isNaN = false) :
    clampFloat lo hi z = (z.max lo).min hi := by
  rw [clampFloat, hz]
  rfl

theorem clampFloat_clampFloat {lo hi z : Double} (hz : z.isNaN = false) :
    clampFloat lo hi (clampFloat lo hi z) = clampFloat lo hi z := by
  rw [clampFloat_of_not_nan hz, Double.min, Double.max]
  cases hlo : lo.isNaN <;> cases hhi : hi.isNaN <;> cases hz' : lo.less z <;>
    simp [clampFloat, Double.min, Double.max, hlo, hhi, hz'] <;> grind

/-- What is no number becomes the lower bound, which has to stay: it does not if it is one zero and
the upper bound is the other. -/
theorem stable_float_iff {lo hi : Double} :
    (Kind.float lo hi).Stable ↔ clampFloat lo hi lo = lo := by
  constructor
  · intro hstable
    have hnan : (Kind.float lo hi).clamp? (.float .nan) = some (.float lo) := by
      rw [clamp?, clampFloat, if_pos (by decide)]
    have hagain := hstable _ _ hnan
    rw [clamp?, Option.some.injEq, Value.float.injEq] at hagain
    exact hagain
  · intro hlo
    have hfloat (z : Double) : clampFloat lo hi (clampFloat lo hi z) = clampFloat lo hi z := by
      cases hz : z.isNaN with
      | true =>
          rw [clampFloat.eq_def lo hi z, if_pos hz]
          exact hlo
      | false => exact clampFloat_clampFloat hz
    intro v w hclamp
    cases v with
    | float z =>
        cases hclamp
        rw [clamp?, hfloat]
    | int i =>
        cases hclamp
        rw [clamp?, hfloat]
    | _ => cases hclamp

theorem stable_float {lo hi : Double} (hbounds : lo.less hi = true) :
    (Kind.float lo hi).Stable := by
  have hlo : lo.isNaN = false := by
    simp only [Double.less, Bool.and_eq_true, Bool.not_eq_true'] at hbounds
    exact hbounds.1.1
  rw [stable_float_iff, clampFloat_of_not_nan hlo, Double.max, ite_self, Double.min, hbounds,
    Bool.or_true, if_pos rfl]

end Kind

structure InBounds (x : Setting) : Prop where
  stable : x.kind.Stable
  value : x.kind.clamp? x.value = some x.value

/-- A setting starts within bounds, if the default is of its type. -/
theorem inBounds_ofKind {name : String} {kind : Kind} (hstable : kind.Stable) {default : Value}
    (hdefault : (kind.clamp? default).isSome) : (ofKind name kind default).InBounds := by
  obtain ⟨w, hw⟩ := Option.isSome_iff_exists.mp hdefault
  refine ⟨hstable, ?_⟩
  simp only [ofKind, hw, Option.getD_some]
  exact hstable _ _ hw

theorem inBounds_bool (name : String) (default : Bool) : (Setting.bool name default).InBounds :=
  inBounds_ofKind Kind.stable_bool rfl

theorem inBounds_int (name : String) (default a b : Int) :
    (Setting.int name default a b).InBounds :=
  inBounds_ofKind (Kind.stable_int _ _) rfl

/-- Bounds that are equal or not comparable are another matter, as the lower one may not stay. -/
theorem inBounds_float (name : String) (default : Double) {a b : Double}
    (hbounds : a.less b = true ∨ b.less a = true) : (Setting.float name default a b).InBounds := by
  have hordered {lo hi : Double} (hless : lo.less hi = true) :
      (ofKind name (.float lo hi) (.float default)).InBounds :=
    inBounds_ofKind (Kind.stable_float hless) rfl
  rcases hbounds with hless | hless
  · simpa only [float, hless, Bool.true_or, if_true] using hordered hless
  · have hinOrder : (a.less b || a.same b) = false := by
      simp only [Double.less, Double.same, Bool.and_eq_true, decide_eq_true_eq] at hless ⊢
      grind
    simpa only [float, hinOrder, Bool.false_eq_true, if_false] using hordered hless

theorem inBounds_choice (name : String) (default : Nat) (options : List String) :
    (Setting.choice name default options).InBounds :=
  inBounds_ofKind (Kind.stable_choice _) rfl

theorem InBounds.describe (hx : x.InBounds) (description : String) :
    (x.describe description).InBounds := ⟨hx.stable, hx.value⟩

theorem InBounds.bind (hx : x.InBounds) (b : Binding) : (x.bind b).InBounds := ⟨hx.stable, hx.value⟩

theorem InBounds.assign (hx : x.InBounds) (hclamp : x.kind.clamp? v = some w) :
    InBounds { x with value := w } := ⟨hx.stable, hx.stable v w hclamp⟩

theorem fields_of_withdrawn_eq (hsame : y.withdrawn = x.withdrawn) :
    y.name = x.name ∧ y.kind = x.kind ∧ y.value = x.value ∧ y.binding = x.binding := by
  simp only [withdrawn, Setting.mk.injEq] at hsame
  exact ⟨hsame.1, hsame.2.2.1, hsame.2.2.2.2.1, hsame.2.2.2.2.2.1⟩

theorem InBounds.of_withdrawn_eq (hx : x.InBounds) (hsame : y.withdrawn = x.withdrawn) :
    y.InBounds := by
  obtain ⟨-, hkind, hvalue, -⟩ := fields_of_withdrawn_eq hsame
  refine ⟨?_, ?_⟩
  · rw [hkind]
    exact hx.stable
  · rw [hkind, hvalue]
    exact hx.value

theorem inBounds_of_map (hxs : ∀ x ∈ xs, x.InBounds)
    (hsame : ys.map withdrawn = xs.map withdrawn) : ∀ y ∈ ys, y.InBounds := by
  intro y hy
  have hmem : y.withdrawn ∈ xs.map withdrawn := by
    rw [← hsame]
    exact List.mem_map_of_mem hy
  obtain ⟨x, hx, heq⟩ := List.mem_map.mp hmem
  exact (hxs x hx).of_withdrawn_eq heq.symm

/-! ## What writing and restoring keep -/

theorem LiveCourse.withdrawn_eq {r : Except SettingError Bool} (hc : LiveCourse x s r y m) :
    y.withdrawn = x.withdrawn := by
  cases hc with
  | unbound => rfl
  | adrift => rfl
  | written => rfl
  | failed => rfl

theorem withdrawn_writeLive (x : Setting) (s : Site) :
    (x.writeLive s).2.1.withdrawn = x.withdrawn := by
  obtain ⟨r, y, s', m, heq, hcourse, -⟩ := writeLive_course x s
  rw [heq]
  exact hcourse.withdrawn_eq

theorem withdrawn_restoreLive (x : Setting) (h : Host) :
    (x.restoreLive h).2.1.withdrawn = x.withdrawn := by
  unfold restoreLive
  split
  · rfl
  · split
    · rfl
    · rfl

theorem map_withdrawn_writeAll (xs : List Setting) (s : Site) :
    (writeAll xs s).2.1.map withdrawn = xs.map withdrawn := by
  induction xs generalizing s with
  | nil => rfl
  | cons x xs ih =>
      have hx := withdrawn_writeLive x s
      rcases heq : x.writeLive s with ⟨r, y, s₁⟩
      rw [heq] at hx
      rw [writeAll, heq]
      cases r with
      | error e => rw [List.map_cons, List.map_cons, hx]
      | ok u => rw [List.map_cons, List.map_cons, hx, ih]

theorem map_withdrawn_writeAgain (xs : List Setting) (s : Site) :
    (writeAgain xs s).1.map withdrawn = xs.map withdrawn := by
  induction xs generalizing s with
  | nil => rfl
  | cons x xs ih =>
      have hx := withdrawn_writeLive x s
      rcases heq : x.writeLive s with ⟨r, y, s₁⟩
      rw [heq] at hx
      obtain ⟨s₂, -, heq'⟩ := writeAgain_cons heq xs
      rw [heq', List.map_cons, List.map_cons, hx, ih]

theorem map_withdrawn_restoreEach (done xs : List Setting) (s : Site) :
    (restoreEach done xs s).2.1.map withdrawn =
      done.reverse.map withdrawn ++ xs.map withdrawn := by
  induction xs generalizing done s with
  | nil => rw [restoreEach, List.map_nil, List.append_nil]
  | cons x xs ih =>
      have hx := withdrawn_restoreLive x s.host
      rcases heq : x.restoreLive s.host with ⟨r, y, h⟩
      rw [heq] at hx
      rw [restoreEach, heq]
      cases r with
      | ok u =>
          rw [ih, List.reverse_cons, List.map_append, List.map_cons, List.map_cons, hx]
          simp
      | error e =>
          simp only [List.map_append, List.map_cons, map_withdrawn_writeAgain, hx]

theorem map_withdrawn_restoreAll (xs : List Setting) (s : Site) :
    (restoreAll xs s).2.1.map withdrawn = xs.map withdrawn :=
  map_withdrawn_restoreEach [] xs s

theorem map_withdrawn_writePending (patch : String) (xs : List Setting) (s : Site) :
    (writePending patch xs s).1.map withdrawn = xs.map withdrawn := by
  induction xs generalizing s with
  | nil => rfl
  | cons x xs ih =>
      by_cases hpending : x.pending = true
      · have hx := withdrawn_writeLive x s
        rcases heq : x.writeLive s with ⟨r, y, s₁⟩
        rw [heq] at hx
        obtain ⟨s₂, -, heq'⟩ := writePending_cons patch heq hpending xs
        rw [heq', List.map_cons, List.map_cons, hx, ih]
      · rw [writePending, if_neg hpending, List.map_cons, List.map_cons, ih]

/-! ## Giving a setting a value -/

/-- How giving a setting a value goes, which it is to have in memory too if it is `live`. -/
inductive ChangeCourse (x : Setting) (v : Value) (live : Bool) (s : Site) :
    Except SettingError Value → Setting → Memory → Prop where
  | mismatch {e : SettingError} (hclamp : x.kind.clamp? v = none) :
      ChangeCourse x v live s (.error e) x s.host.memory
  | stored {w : Value} (hclamp : x.kind.clamp? v = some w) (hlive : live = false) :
      ChangeCourse x v live s (.ok w) { x with value := w } s.host.memory
  | written {w : Value} {b : Bool} {y : Setting} {m : Memory} (hclamp : x.kind.clamp? v = some w)
      (hlive : live = true) (hcourse : LiveCourse { x with value := w } s (.ok b) y m) :
      ChangeCourse x v live s (.ok w) y m
  /-- The old value is stored again, once more brought within bounds. -/
  | failed {w : Value} {e e' : SettingError} {y : Setting} {m : Memory}
      (hclamp : x.kind.clamp? v = some w) (hlive : live = true)
      (hcourse : LiveCourse { x with value := w } s (.error e) y m) :
      ChangeCourse x v live s (.error e') { y with value := (x.kind.clamp? x.value).getD w } m

/-- However memory answers, giving a setting a value goes one of these ways. -/
theorem change_course (x : Setting) (v : Value) (live : Bool) (s : Site) :
    ∃ r y s' m, change x v live s = (r, y, s') ∧ ChangeCourse x v live s r y m ∧
      Quiet (s.host.withMemory m) s'.host := by
  unfold change Setting.assign
  cases hclamp : x.kind.clamp? v with
  | none => exact ⟨_, x, s, s.host.memory, rfl, .mismatch hclamp, .refl _⟩
  | some w =>
      cases live with
      | false => exact ⟨_, _, s, s.host.memory, rfl, .stored hclamp rfl, .refl _⟩
      | true =>
          obtain ⟨r, y, s', m, heq, hcourse, hquiet⟩ := writeLive_course { x with value := w } s
          obtain ⟨-, hkind, hsame, -⟩ := fields_of_withdrawn_eq hcourse.withdrawn_eq
          have hvalue : y.value = w := hsame
          have hback : y.kind.clamp? x.value = x.kind.clamp? x.value := by rw [hkind]
          simp only [if_true, heq]
          cases r with
          | ok b =>
              simp only [hvalue]
              exact ⟨.ok w, y, s', m, rfl, .written hclamp rfl hcourse, hquiet⟩
          | error e =>
              have hfailed (e' : SettingError) : ChangeCourse x v true s (.error e')
                  { y with value := (x.kind.clamp? x.value).getD w } m :=
                .failed hclamp rfl hcourse
              simp only [hback]
              cases hclamp' : x.kind.clamp? x.value with
              | none =>
                  rw [hclamp', Option.getD_none, ← hvalue] at hfailed
                  exact ⟨_, y, s', m, rfl, hfailed _, hquiet⟩
              | some u =>
                  rw [hclamp', Option.getD_some] at hfailed
                  exact ⟨_, _, s', m, rfl, hfailed _, hquiet⟩

/-- A refused value leaves the one that was there. -/
theorem ChangeCourse.withdrawn_eq (hx : x.kind.clamp? x.value = some x.value)
    {r : Except SettingError Value} (hc : ChangeCourse x v live s r y m) :
    (∃ e, r = .error e) ∧ y.withdrawn = x.withdrawn ∨
      ∃ w, r = .ok w ∧ x.kind.clamp? v = some w ∧
        y.withdrawn = withdrawn { x with value := w } := by
  cases hc with
  | mismatch => exact .inl ⟨⟨_, rfl⟩, rfl⟩
  | stored hclamp => exact .inr ⟨_, rfl, hclamp, rfl⟩
  | written hclamp _ hcourse => exact .inr ⟨_, rfl, hclamp, hcourse.withdrawn_eq⟩
  | @failed w _ e z m _ _ hcourse =>
      refine .inl ⟨⟨e, rfl⟩, ?_⟩
      rw [hx]
      have hback : withdrawn { z.withdrawn with value := x.value } = x.withdrawn := by
        rw [hcourse.withdrawn_eq]
        rfl
      exact hback

theorem ChangeCourse.inBounds (hx : x.InBounds) {r : Except SettingError Value}
    (hc : ChangeCourse x v live s r y m) : y.InBounds := by
  rcases hc.withdrawn_eq hx.value with ⟨-, hsame⟩ | ⟨w, -, hclamp, hsame⟩
  · exact hx.of_withdrawn_eq hsame
  · exact (hx.assign hclamp).of_withdrawn_eq hsame

/-- The setting that a name stands for is the first one that has it. -/
theorem named?_eq_some_iff {name : String} :
    named? xs name = some x ↔
      x.name = name ∧ ∃ front back, xs = front ++ x :: back ∧ ∀ y ∈ front, y.name ≠ name := by
  rw [named?, List.find?_eq_some_iff_append]
  simp

theorem named?_eq_none_iff {name : String} :
    named? xs name = none ↔ ∀ x ∈ xs, x.name ≠ name := by
  simp [named?]

theorem changeFirst_of_none {name : String} (hnone : named? xs name = none) (v : Value)
    (live : Bool) (s : Site) :
    changeFirst name v live xs s = (.error (.unknownSetting name), xs, s) := by
  rw [named?_eq_none_iff] at hnone
  induction xs with
  | nil => rfl
  | cons x xs ih =>
      obtain ⟨hx, hrest⟩ := List.forall_mem_cons.mp hnone
      rw [changeFirst, if_neg hx, ih hrest]

/-- Only the first setting of the name is changed. -/
theorem changeFirst_append {name : String} {front : List Setting}
    (hfront : ∀ y ∈ front, y.name ≠ name) (hx : x.name = name) {r : Except SettingError Value}
    (heq : change x v live s = (r, y, s')) (back : List Setting) :
    changeFirst name v live (front ++ x :: back) s = (r, front ++ y :: back, s') := by
  induction front with
  | nil => rw [List.nil_append, changeFirst, if_pos hx, heq, List.nil_append]
  | cons z front ih =>
      obtain ⟨hz, hrest⟩ := List.forall_mem_cons.mp hfront
      rw [List.cons_append, changeFirst, if_neg hz, ih hrest, List.cons_append]

end Setting

end HotPatch
