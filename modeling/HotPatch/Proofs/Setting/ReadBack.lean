import HotPatch.Proofs.Setting.Saved

/-!
# Reading back what was saved

A switch, an integer or a choice is read back from its saved form, whatever was stored in it, unless
an earlier option of the choice differs from the one that is held only in the case of letters.
-/

namespace HotPatch.Setting

variable {x y : Setting} {v : Value}

/-- A switch, an integer or a choice between any options, after values were stored in it. -/
inductive Held : Setting → Prop where
  | bool (name : String) (default : Bool) : Held (Setting.bool name default)
  | int (name : String) (default a b : Int) : Held (Setting.int name default a b)
  | choice (name : String) (default : Nat) (options : List String) :
      Held (Setting.choice name default options)
  | describe {x : Setting} (description : String) : Held x → Held (x.describe description)
  | bind {x : Setting} (b : Binding) : Held x → Held (x.bind b)
  | assign {x y : Setting} {v : Value} (hassign : x.assign v = .ok y) : Held x → Held y
  /-- Its write and whether it waits for one play no part. -/
  | moved {x y : Setting} (hsame : y.withdrawn = x.withdrawn) : Held x → Held y

theorem exists_clamp_of_assign (hassign : x.assign v = .ok y) :
    ∃ w, x.kind.clamp? v = some w ∧ y = { x with value := w } := by
  unfold Setting.assign at hassign
  split at hassign
  · rename_i w hclamp
    cases hassign
    exact ⟨w, hclamp, rfl⟩
  · cases hassign

namespace Held

theorem inBounds (hx : x.Held) : x.InBounds := by
  induction hx with
  | bool name default => exact inBounds_bool name default
  | int name default a b => exact inBounds_int name default a b
  | choice name default options => exact inBounds_choice name default options
  | describe description _ ih => exact ih.describe description
  | bind b _ ih => exact ih.bind b
  | assign hassign _ ih =>
      obtain ⟨w, hclamp, rfl⟩ := exists_clamp_of_assign hassign
      exact ih.assign hclamp
  | moved hsame _ ih => exact ih.of_withdrawn_eq hsame

theorem kind_ne_float (hx : x.Held) (lo hi : Double) : x.kind ≠ .float lo hi := by
  induction hx with
  | bool name default => exact nofun
  | int name default a b => exact nofun
  | choice name default options => exact nofun
  | describe description _ ih => exact ih
  | bind b _ ih => exact ih
  | assign hassign _ ih =>
      obtain ⟨w, -, rfl⟩ := exists_clamp_of_assign hassign
      exact ih
  | moved hsame _ ih =>
      rw [(fields_of_withdrawn_eq hsame).2.1]
      exact ih

end Held

/-- What is held is read back exactly if no option before it has the same letters. -/
theorem readBack_iff (hx : x.Held) :
    x.kind.ofToml? x.toToml = some x.value ↔ x.kind.Tells x.value :=
  ofToml?_toToml_iff hx.kind_ne_float hx.inBounds.value

def speed : Setting := { Setting.choice "Speed" 0 ["Off", "Fast", "fast"] with value := .choice 2 }

theorem held_speed : speed.Held :=
  .assign (show (Setting.choice "Speed" 0 ["Off", "Fast", "fast"]).assign (.choice 7) = .ok speed
    by rfl) (.choice ..)

theorem readBack_iff_speed :
    speed.Held ∧ (speed.kind.ofToml? speed.toToml = some speed.value ↔
      speed.kind.Tells speed.value) :=
  ⟨held_speed, readBack_iff held_speed⟩

/-- Its options are distinct, and yet the earlier one is read. -/
theorem readBack_speed :
    ∃ (x : Setting) (options : List String), x.Held ∧ x.kind = .choice options ∧
      options.Nodup ∧ x.value = .choice 2 ∧ x.kind.ofToml? x.toToml = some (.choice 1) :=
  ⟨speed, _, held_speed, rfl, by decide, rfl, by decide +kernel⟩

end HotPatch.Setting
