import HotPatch.Proofs.Memory.Region
import HotPatch.Trampoline.Walk

/-!
# What a walk comes by

A walk comes by every page of its window that lies in its direction. Of those it gives the free
ones, nearest first, and leaves none out.
-/

namespace HotPatch.Trampoline

def Direction.Sooner : Direction → Nat → Nat → Prop
  | .up, k, n => k < n
  | .down, k, n => n < k

theorem Direction.Sooner.asymm {d : Direction} {k n : Nat} (h : d.Sooner k n) : ¬ d.Sooner n k := by
  cases d with
  | up => exact Nat.lt_asymm h
  | down => exact Nat.lt_asymm h

namespace Walk

variable {m : Memory} {w rest : Walk} {suits : Address → Bool} {a : Address} {first last n k : Nat}

/-- The walk is at the start of a page, and behind the end of its window at which it came in. -/
structure InStep (w : Walk) : Prop where
  aligned : w.cursor % pageSize = 0
  entered : match w.direction with
    | .up => 0 < w.cursor ∧ w.window.start ≤ w.cursor
    | .down => w.cursor < w.window.stop

/-- The pages that the walk has still to come by. The first one of the address space never is. -/
def Ahead (w : Walk) (n : Nat) : Prop :=
  match w.direction with
  | .up => w.cursor ≤ n * pageSize ∧ n * pageSize < w.window.stop
  | .down => n * pageSize ≤ w.cursor ∧ w.window.start ≤ n * pageSize ∧ 0 < n

theorem not_ahead_of_not_goesOn (hw : w.InStep) (hstop : ¬ w.GoesOn) (k : Nat) : ¬ w.Ahead k := by
  obtain ⟨⟨start, stop⟩, direction, cursor⟩ := w
  obtain ⟨-, hentered⟩ := hw
  cases direction <;> simp only [GoesOn, Span.Contains, Ahead, Address, pageSize] at * <;> omega

/-- Passing pages around the cursor leaves those ahead that are not among them. -/
theorem inStep_pass (hw : w.InStep) (hgoes : w.GoesOn) (hfirst : first * pageSize ≤ w.cursor)
    (hlast : w.cursor < last * pageSize) :
    (w.pass (first * pageSize) (last * pageSize)).InStep ∧
      ∀ k, (w.pass (first * pageSize) (last * pageSize)).Ahead k ↔
        w.Ahead k ∧ ¬ (first ≤ k ∧ k < last) := by
  obtain ⟨⟨start, stop⟩, direction, cursor⟩ := w
  obtain ⟨haligned, hentered⟩ := hw
  cases direction with
  | up =>
      simp only [GoesOn, Span.Contains, Ahead, pass, Address, pageSize] at *
      refine ⟨⟨Nat.mul_mod_left .., ?_⟩, fun k ↦ ?_⟩
      · dsimp only [Address]
        omega
      · omega
  | down =>
      simp only [GoesOn, Span.Contains, Ahead, pass, Address, pageSize] at *
      refine ⟨⟨?_, ?_⟩, fun k ↦ ?_⟩
      · dsimp only [Address, pageSize]
        omega
      · dsimp only [Address]
        omega
      · omega

/-- A region is passed with all its pages. -/
theorem inStep_pass_region {r : Region} (hw : w.InStep) (hgoes : w.GoesOn)
    (hr : m.region? (w.cursor / pageSize) = some r) :
    (w.pass r.start r.stop).InStep ∧ (∀ k, (w.pass r.start r.stop).Ahead k → w.Ahead k) ∧
      ∀ k, w.Ahead k → m.page k = none → (w.pass r.start r.stop).Ahead k := by
  obtain ⟨hregion, hfirst, hlast⟩ := Memory.isRegion_of_region? hr
  have hbefore : r.first * pageSize ≤ w.cursor :=
    Nat.le_trans (Nat.mul_le_mul_right pageSize hfirst) (Nat.div_mul_le_self ..)
  have hbehind : w.cursor < r.last * pageSize := (Nat.div_lt_iff_lt_mul (by decide)).mp hlast
  obtain ⟨hpass, hahead⟩ := inStep_pass hw hgoes hbefore hbehind
  rw [Nat.mul_comm r.first, Nat.mul_comm r.last] at hpass hahead
  refine ⟨hpass, fun k hk ↦ ((hahead k).mp hk).1, fun k hk hfree ↦ (hahead k).mpr ⟨hk, ?_⟩⟩
  rintro ⟨hin, hlt⟩
  cases hfree.symm.trans (hregion.page_eq k hin hlt)

/-- Of the pages ahead the one under the cursor comes first. -/
theorem ahead_iff_of_cursor (hw : w.InStep) (hgoes : w.GoesOn) (hn : w.cursor = n * pageSize) :
    w.Ahead n ∧ ∀ k, w.Ahead k → (¬ (n ≤ k ∧ k < n + 1) ↔ w.direction.Sooner n k) := by
  obtain ⟨⟨start, stop⟩, direction, cursor⟩ := w
  obtain ⟨-, hentered⟩ := hw
  cases direction <;>
    simp only [GoesOn, Span.Contains, Ahead, Direction.Sooner, Address, pageSize] at * <;>
    refine ⟨by omega, fun k hk ↦ by omega⟩

/-- A free page is passed by itself. -/
theorem inStep_pass_free (hw : w.InStep) (hgoes : w.GoesOn) (hn : w.cursor = n * pageSize) :
    (w.pass w.cursor (w.cursor + pageSize)).InStep ∧
      ∀ k, (w.pass w.cursor (w.cursor + pageSize)).Ahead k ↔
        w.Ahead k ∧ w.direction.Sooner n k := by
  have hbehind : w.cursor < (n + 1) * pageSize := by
    rw [hn]
    exact Nat.mul_lt_mul_of_pos_right (Nat.lt_succ_self n) (by decide)
  obtain ⟨hpass, hahead⟩ := inStep_pass hw hgoes (Nat.le_of_eq hn.symm) hbehind
  have hsooner := (ahead_iff_of_cursor hw hgoes hn).2
  rw [hn, ← Nat.add_one_mul]
  exact ⟨hpass, fun k ↦ (hahead k).trans (and_congr_right (hsooner k))⟩

/-! ## The next free page -/

/-- When a walk is over, no page ahead of it was free. -/
theorem page_of_next?_eq_none (hw : w.InStep) (hnext : next? m w = none) (hk : w.Ahead k) :
    m.page k ≠ none := by
  induction w using next?.induct m with
  | case1 w hgoes r hr ih =>
      obtain ⟨hpass, -, hahead⟩ := inStep_pass_region hw hgoes hr
      rw [next?_of_region hgoes hr] at hnext
      intro hfree
      exact ih hpass hnext (hahead k hk hfree) hfree
  | case2 w hgoes hr =>
      rw [next?_of_free hgoes hr] at hnext
      cases hnext
  | case3 w hstop => exact absurd hk (not_ahead_of_not_goesOn hw hstop k)

/-- What the walk gives next is the first free page ahead, and it goes on from there. -/
structure Finds (m : Memory) (w : Walk) (n : Nat) (rest : Walk) : Prop where
  ahead : w.Ahead n
  free : m.page n = none
  inStep : rest.InStep
  direction : rest.direction = w.direction
  behind : ∀ k, rest.Ahead k → w.Ahead k ∧ w.direction.Sooner n k
  complete : ∀ k, w.Ahead k → m.page k = none → k = n ∨ rest.Ahead k

theorem finds_of_next? (hw : w.InStep) (hnext : next? m w = some (a, rest)) :
    ∃ n, a = n * pageSize ∧ Finds m w n rest := by
  induction w using next?.induct m with
  | case1 w hgoes r hr ih =>
      obtain ⟨hpass, hback, hahead⟩ := inStep_pass_region hw hgoes hr
      rw [next?_of_region hgoes hr] at hnext
      obtain ⟨n, ha, hn⟩ := ih hpass hnext
      refine ⟨n, ha, hback n hn.ahead, hn.free, hn.inStep, hn.direction, fun k hk ↦ ?_,
        fun k hk hfree ↦ hn.complete k (hahead k hk hfree) hfree⟩
      exact ⟨hback k (hn.behind k hk).1, (hn.behind k hk).2⟩
  | case2 w hgoes hr =>
      rw [next?_of_free hgoes hr] at hnext
      cases hnext
      obtain ⟨n, hn⟩ := Nat.dvd_of_mod_eq_zero hw.aligned
      rw [Nat.mul_comm] at hn
      obtain ⟨hpass, hahead⟩ := inStep_pass_free hw hgoes hn
      obtain ⟨hfirst, hsooner⟩ := ahead_iff_of_cursor hw hgoes hn
      have hdiv : w.cursor / pageSize = n := by
        rw [hn]
        exact Nat.mul_div_cancel n (by decide)
      rw [hdiv, Memory.region?_eq_none_iff] at hr
      refine ⟨n, hn, hfirst, hr, hpass, rfl, fun k hk ↦ (hahead k).mp hk, fun k hk _ ↦ ?_⟩
      by_cases hkn : k = n
      · exact .inl hkn
      · exact .inr ((hahead k).mpr ⟨hk, (hsooner k hk).mp (by omega)⟩)
  | case3 w hstop =>
      rw [next?_of_not_goesOn m hstop] at hnext
      cases hnext

/-! ## The first that suits -/

def Offers (m : Memory) (suits : Address → Bool) (w : Walk) (n : Nat) : Prop :=
  w.Ahead n ∧ m.page n = none ∧ suits (n * pageSize) = true

theorem Finds.offers_iff (hn : Finds m w n rest) :
    Offers m suits w k ↔ k = n ∧ suits (n * pageSize) = true ∨ Offers m suits rest k := by
  constructor
  · rintro ⟨hk, hfree, hsuits⟩
    rcases hn.complete k hk hfree with rfl | hbehind
    · exact .inl ⟨rfl, hsuits⟩
    · exact .inr ⟨hbehind, hfree, hsuits⟩
  · rintro (⟨rfl, hsuits⟩ | ⟨hbehind, hfree, hsuits⟩)
    · exact ⟨hn.ahead, hn.free, hsuits⟩
    · exact ⟨(hn.behind k hbehind).1, hfree, hsuits⟩

theorem Finds.offers_iff_of_not_suits (hn : Finds m w n rest)
    (hsuits : ¬ suits (n * pageSize) = true) : Offers m suits w k ↔ Offers m suits rest k :=
  hn.offers_iff.trans (or_iff_right fun h ↦ hsuits h.2)

/-- A walk finds nothing exactly if no page ahead of it is free and suits. -/
theorem find?_eq_none_iff (hw : w.InStep) :
    find? m suits w = none ↔ ∀ k, ¬ Offers m suits w k := by
  induction w using find?.induct m suits with
  | case1 w hnext =>
      rw [find?_of_next?_eq_none suits hnext]
      exact iff_of_true rfl fun k hk ↦ page_of_next?_eq_none hw hnext hk.1 hk.2.1
  | case2 w a rest hnext hsuits =>
      obtain ⟨n, rfl, hn⟩ := finds_of_next? hw hnext
      rw [find?_of_next?_eq_some suits hnext, if_pos hsuits]
      exact iff_of_false nofun fun hnone ↦ hnone n ⟨hn.ahead, hn.free, hsuits⟩
  | case3 w a rest hnext hsuits ih =>
      obtain ⟨n, rfl, hn⟩ := finds_of_next? hw hnext
      rw [find?_of_next?_eq_some suits hnext, if_neg hsuits, ih hn.inStep]
      simp only [hn.offers_iff_of_not_suits hsuits]

/-- What is found is the first page ahead that is free and suits. -/
theorem find?_eq_some_iff (hw : w.InStep) :
    find? m suits w = some a ↔ ∃ n, a = n * pageSize ∧ Offers m suits w n ∧
      ∀ k, Offers m suits w k → k = n ∨ w.direction.Sooner n k := by
  induction w using find?.induct m suits with
  | case1 w hnext =>
      rw [find?_of_next?_eq_none suits hnext]
      refine iff_of_false nofun ?_
      rintro ⟨n, -, hn, -⟩
      exact page_of_next?_eq_none hw hnext hn.1 hn.2.1
  -- the next free page suits, and every other one on offer is behind it
  | case2 w a' rest hnext hsuits =>
      obtain ⟨n, rfl, hn⟩ := finds_of_next? hw hnext
      rw [find?_of_next?_eq_some suits hnext, if_pos hsuits]
      have hoffers : Offers m suits w n := ⟨hn.ahead, hn.free, hsuits⟩
      constructor
      · intro heq
        refine ⟨n, (Option.some.inj heq).symm, hoffers, fun k hk ↦ ?_⟩
        exact (hn.offers_iff.mp hk).imp (·.1) fun hbehind ↦ (hn.behind k hbehind.1).2
      · rintro ⟨k, rfl, hk, hfirst⟩
        rcases hn.offers_iff.mp hk with ⟨rfl, -⟩ | hbehind
        · rfl
        · rcases hfirst n hoffers with rfl | hsooner
          · rfl
          · exact absurd (hn.behind k hbehind.1).2 hsooner.asymm
  | case3 w a' rest hnext hsuits ih =>
      obtain ⟨n, rfl, hn⟩ := finds_of_next? hw hnext
      rw [find?_of_next?_eq_some suits hnext, if_neg hsuits, ih hn.inStep]
      simp only [hn.offers_iff_of_not_suits hsuits, hn.direction]

theorem aligned_start (origin : Address) (window : Span) (d : Direction) :
    (start origin window d).cursor % pageSize = 0 := by
  simp only [start, Address, pageSize]
  omega

/-- Only a walk that is in step finds anything. -/
theorem inStep_of_find? (haligned : w.cursor % pageSize = 0) (hfind : find? m suits w = some a) :
    w.InStep := by
  by_cases hgoes : w.GoesOn
  · obtain ⟨window, direction, cursor⟩ := w
    obtain ⟨hpos, hstart, hstop⟩ := hgoes
    cases direction with
    | up => exact ⟨haligned, hpos, hstart⟩
    | down => exact ⟨haligned, hstop⟩
  · rw [find?_of_next?_eq_none suits (next?_of_not_goesOn m hgoes)] at hfind
    cases hfind

end Walk

end HotPatch.Trampoline
