import Mathlib.Data.List.Basic

/-!
# Runs

What holds at each point of a run, told from the steps by themselves.
-/

namespace HotPatch

section

variable {α : Type}

theorem forall_prefix_cons {P : List α → Prop} {a : α} {as : List α} :
    (∀ front, front <+: a :: as → P front) ↔ P [] ∧ ∀ front, front <+: as → P (a :: front) := by
  constructor
  · exact fun hall ↦ ⟨hall [] List.nil_prefix, fun front hfront ↦
      hall (a :: front) ((List.prefix_cons_inj a).mpr hfront)⟩
  · rintro ⟨hnil, hcons⟩ front hfront
    cases front with
    | nil => exact hnil
    | cons b front =>
        obtain ⟨rfl, htail⟩ := List.cons_prefix_cons.mp hfront
        exact hcons front htail

theorem forall_turn_nil {P : List α → α → Prop} : ∀ front a, front ++ [a] <+: [] → P front a :=
  fun front a hfront ↦ absurd (List.prefix_nil.mp hfront)
    (List.append_ne_nil_of_right_ne_nil front (List.cons_ne_nil a []))

theorem forall_turn_cons {P : List α → α → Prop} {a : α} {as : List α} :
    (∀ front b, front ++ [b] <+: a :: as → P front b) ↔
      P [] a ∧ ∀ front b, front ++ [b] <+: as → P (a :: front) b := by
  constructor
  · exact fun hall ↦ ⟨hall [] a ((List.prefix_cons_inj a).mpr List.nil_prefix), fun front b hfront ↦
      hall (a :: front) b ((List.prefix_cons_inj a).mpr hfront)⟩
  · rintro ⟨hnil, hcons⟩ front b hfront
    cases front with
    | nil =>
        obtain ⟨rfl, -⟩ := List.cons_prefix_cons.mp hfront
        exact hnil
    | cons c front =>
        obtain ⟨rfl, htail⟩ := List.cons_prefix_cons.mp hfront
        exact hcons front b htail

end

/-- If from a good state only the allowed steps lead to a good one, all states of a run are good
exactly if each step is allowed at its turn. -/
theorem forall_prefix_iff {α σ : Type} (run : List α → σ → σ) (step : α → σ → σ)
    (Inv Good : σ → Prop) (Allowed : α → σ → Prop) (hnil : ∀ s, run [] s = s)
    (hcons : ∀ a as s, run (a :: as) s = run as (step a s))
    (hinv : ∀ a s, Inv s → Inv (step a s))
    (hstep : ∀ a s, Inv s → Good s → (Good (step a s) ↔ Allowed a s)) {s : σ} (hs : Inv s)
    (hgood : Good s) (as : List α) :
    (∀ front, front <+: as → Good (run front s)) ↔
      ∀ front a, front ++ [a] <+: as → Allowed a (run front s) := by
  induction as generalizing s with
  | nil =>
      refine iff_of_true (fun front hfront ↦ ?_) forall_turn_nil
      rw [List.prefix_nil.mp hfront, hnil]
      exact hgood
  | cons a as ih =>
      have hiff := hstep a s hs hgood
      simp only [forall_prefix_cons, forall_turn_cons, hnil, hcons]
      constructor
      · rintro ⟨-, hall⟩
        have hnext : Good (step a s) := by
          have hfirst := hall [] List.nil_prefix
          rwa [hnil] at hfirst
        exact ⟨hiff.mp hnext, (ih (hinv a s hs) hnext).mp hall⟩
      · rintro ⟨hallowed, hall⟩
        exact ⟨hgood, (ih (hinv a s hs) (hiff.mpr hallowed)).mpr hall⟩

end HotPatch
