import HotPatch.Proofs.Setting.Bounds
import HotPatch.Setting.Saved
import HotPatch.Toml.Written

/-!
# What a document says of a setting

Switches, integers and choices between distinct options are read back as they were saved, as long as
they are within bounds.
-/

namespace HotPatch.Setting

variable {x y : Setting} {k : Kind} {v : Value}

/-- No two values of the kind are saved alike. -/
def Kind.Faithful : Kind → Prop
  | .bool => True
  | .int .. => True
  | .float .. => False
  | .choice options => options.Pairwise fun a b ↦ sameLetters a b = false

theorem sameLetters_self (s : String) : sameLetters s s = true := beq_self_eq_true _

/-- The option at a place is the first with its letters exactly if none before it has them. -/
theorem findIdx?_sameLetters_iff {options : List String} {i : Nat} (hi : i < options.length) :
    options.findIdx? (sameLetters · options[i]) = some i ↔
      ∀ o ∈ options.take i, sameLetters o options[i] = false := by
  rw [List.findIdx?_eq_some_iff_getElem]
  constructor
  · rintro ⟨_, -, hbefore⟩ o ho
    obtain ⟨j, hj, rfl⟩ := List.mem_take_iff_getElem.mp ho
    exact Bool.eq_false_iff.mpr (hbefore j (Nat.lt_min.mp hj).1)
  · intro hbefore
    refine ⟨hi, sameLetters_self _, fun j hj ↦ Bool.eq_false_iff.mp (hbefore _ ?_)⟩
    exact List.mem_take_iff_getElem.mpr ⟨j, Nat.lt_min.mpr ⟨hj, hj.trans hi⟩, rfl⟩

/-- No option before the one that `v` stands for has the same letters. -/
def Kind.Tells : Kind → Value → Prop
  | .choice options, .choice i =>
    ∀ o, options[i]? = some o → ∀ o' ∈ options.take i, sameLetters o' o = false
  | _, _ => True

theorem Kind.Faithful.tells (hk : k.Faithful) (v : Value) : k.Tells v := by
  cases k with
  | choice options =>
      cases v with
      | choice i =>
          intro o ho o' ho'
          obtain ⟨hi, rfl⟩ := List.getElem?_eq_some_iff.mp ho
          obtain ⟨j, hj, rfl⟩ := List.mem_take_iff_getElem.mp ho'
          exact List.pairwise_iff_getElem.mp hk j i _ hi (Nat.lt_min.mp hj).1
      | _ => trivial
  | _ => trivial

/-- A value within bounds that is no number with a fraction is read back from what it is saved as
unless an earlier option takes its place. -/
theorem ofToml?_toToml_iff (hfloat : ∀ lo hi, x.kind ≠ .float lo hi)
    (hx : x.kind.clamp? x.value = some x.value) :
    x.kind.ofToml? x.toToml = some x.value ↔ x.kind.Tells x.value := by
  unfold toToml
  cases hkind : x.kind with
  | float lo hi => exact absurd hkind (hfloat lo hi)
  | bool =>
      rw [hkind] at hx
      cases hvalue : x.value with
      | bool b => exact iff_of_true rfl trivial
      | _ =>
          rw [hvalue] at hx
          cases hx
  | int lo hi =>
      rw [hkind] at hx
      cases hvalue : x.value with
      | int i => exact iff_of_true rfl trivial
      | _ =>
          rw [hvalue] at hx
          cases hx
  | choice options =>
      rw [hkind] at hx
      cases hvalue : x.value with
      | choice i =>
          rw [hvalue, Kind.clamp?, Option.some.injEq, Value.choice.injEq] at hx
          cases options with
          | nil =>
              obtain rfl : i = 0 := hx.symm.trans (Nat.min_zero i)
              refine iff_of_true rfl ?_
              intro o hnone
              cases hnone
          | cons o options =>
              have hi : i < (o :: options).length := by
                rw [← hx, List.length_cons]
                exact Nat.lt_succ_of_le (Nat.min_le_right _ _)
              have hfind := findIdx?_sameLetters_iff hi
              simp only [List.getElem?_eq_getElem hi, Kind.ofToml?, Kind.Tells,
                Option.map_eq_some_iff, Value.choice.injEq, exists_eq_right, Option.some.injEq,
                forall_eq']
              exact hfind
      | _ =>
          rw [hvalue] at hx
          cases hx

/-- A value within bounds is read back from what it is saved as. -/
theorem ofToml?_toToml (hk : x.kind.Faithful) (hx : x.kind.clamp? x.value = some x.value) :
    x.kind.ofToml? x.toToml = some x.value := by
  refine (ofToml?_toToml_iff (fun lo hi hfloat ↦ ?_) hx).mpr (hk.tells _)
  rw [hfloat] at hk
  exact hk

/-- No value of a setting is saved as a moment. -/
theorem withoutMoments?_toToml (x : Setting) : x.toToml.withoutMoments? = some x.toToml := by
  unfold toToml
  split
  · split
    · rfl
    · rfl
  · rfl
  · rfl
  · rfl
  · rfl

/-- Unless it is a number with a fraction, a value that does not differ from the default is the
default. -/
theorem value_eq_of_not_modified (hk : x.kind.Faithful) (hx : x.kind.clamp? x.value = some x.value)
    (hmodified : x.isModified = false) : x.value = x.default := by
  have hsame : x.value.same x.default = true := by
    rwa [isModified, Bool.not_eq_false'] at hmodified
  cases hvalue : x.value with
  | float z =>
      cases hkind : x.kind with
      | float lo hi =>
          rw [hkind] at hk
          exact hk.elim
      | _ =>
          rw [hkind, hvalue] at hx
          cases hx
  | _ =>
      rw [hvalue] at hsame
      exact eq_of_beq hsame

/-! ## Settings as they are declared -/

/-- A switch, an integer, or a choice between options that differ in more than the case of letters,
as the body of a patch declares it. -/
inductive Declared : Setting → Prop where
  | bool (name : String) (default : Bool) : Declared (Setting.bool name default)
  | int (name : String) (default a b : Int) : Declared (Setting.int name default a b)
  | choice (name : String) (default : Nat) {options : List String}
      (hoptions : options.Pairwise fun a b ↦ sameLetters a b = false) :
      Declared (Setting.choice name default options)
  | describe {x : Setting} (description : String) : Declared x → Declared (x.describe description)
  | bind {x : Setting} (b : Binding) : Declared x → Declared (x.bind b)

namespace Declared

theorem faithful (hx : x.Declared) : x.kind.Faithful := by
  induction hx with
  | bool name default => trivial
  | int name default a b => trivial
  | choice name default hoptions => exact hoptions
  | describe description _ ih => exact ih
  | bind b _ ih => exact ih

theorem inBounds (hx : x.Declared) : x.InBounds := by
  induction hx with
  | bool name default => exact inBounds_bool name default
  | int name default a b => exact inBounds_int name default a b
  | choice name default => exact inBounds_choice name default _
  | describe description _ ih => exact ih.describe description
  | bind b _ ih => exact ih.bind b

theorem value_eq (hx : x.Declared) : x.value = x.default := by
  induction hx with
  | bool name default => rfl
  | int name default a b => rfl
  | choice name default => rfl
  | describe description _ ih => exact ih
  | bind b _ ih => exact ih

end Declared

/-- What stays of a setting whatever value it is given. -/
def blank (x : Setting) : Setting := { x.withdrawn with value := x.default }

theorem blank_eq_of_withdrawn_eq (hsame : y.withdrawn = x.withdrawn) : y.blank = x.blank := by
  have hblank := congrArg (fun z : Setting ↦ { z with value := z.default }) hsame
  exact hblank

theorem map_blank_eq {xs ys : List Setting} (hsame : ys.map withdrawn = xs.map withdrawn) :
    ys.map blank = xs.map blank := by
  have hblank (xs : List Setting) : xs.map blank = (xs.map withdrawn).map blank := by
    rw [List.map_map]
    rfl
  rw [hblank, hsame, ← hblank]

theorem withdrawn_eq_of_blank_eq (hblank : y.blank = x.blank) (hvalue : y.value = x.value) :
    y.withdrawn = x.withdrawn := by
  have hsame : { y.blank with value := y.value } = { x.blank with value := x.value } := by
    rw [hblank, hvalue]
  exact hsame

theorem ChangeCourse.blank_eq {s : Site} {live : Bool} {r : Except SettingError Value} {m : Memory}
    (hx : x.kind.clamp? x.value = some x.value) (hc : x.ChangeCourse v live s r y m) :
    y.blank = x.blank := by
  rcases hc.withdrawn_eq hx with ⟨-, hsame⟩ | ⟨w, -, -, hsame⟩
  · exact blank_eq_of_withdrawn_eq hsame
  · exact (blank_eq_of_withdrawn_eq hsame).trans rfl

/-! ## Restoring -/

def restored (x : Setting) (v : Toml.Value) : Setting :=
  match (x.kind.ofToml? v).bind x.kind.clamp? with
  | some w => { x with value := w }
  | none => x

theorem name_restored (x : Setting) (v : Toml.Value) : (x.restored v).name = x.name := by
  unfold restored
  split
  · rfl
  · rfl

/-- What a setting as declared becomes with a value that another one was saved with. -/
theorem withdrawn_restored (hx : x.Declared) (hblank : y.blank = x.blank) (hy : y.InBounds) :
    (x.restored y.toToml).withdrawn = y.withdrawn := by
  have hkind : y.kind = x.kind := (congrArg (·.kind) hblank :)
  have hfaithful : y.kind.Faithful := by
    rw [hkind]
    exact hx.faithful
  have hread : (x.kind.ofToml? y.toToml).bind x.kind.clamp? = some y.value := by
    rw [← hkind, ofToml?_toToml hfaithful hy.value, Option.bind_some, hy.value]
  rw [restored, hread]
  have hsame : y.blank = blank { x with value := y.value } := hblank
  exact (withdrawn_eq_of_blank_eq hsame rfl).symm

end HotPatch.Setting
