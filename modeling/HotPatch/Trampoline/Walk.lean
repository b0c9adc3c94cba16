import HotPatch.Memory.Region

/-!
# Walks over the address space

A walk looks for free pages in one direction. It passes a region as a whole and a free page by
itself, and ends where its window ends or at the first page of the address space.
-/

namespace HotPatch.Trampoline

inductive Direction where
  | up
  | down
  deriving DecidableEq, Repr

structure Walk where
  /-- The addresses that may be visited. -/
  window : Span
  direction : Direction
  /-- The address that is visited next. -/
  cursor : Address

namespace Walk

/-- A walk that starts with the page of `origin`. -/
def start (origin : Address) (window : Span) (direction : Direction) : Walk :=
  ⟨window, direction, origin - origin % pageSize⟩

def GoesOn (w : Walk) : Prop := 0 < w.cursor ∧ w.window.Contains w.cursor

instance (w : Walk) : Decidable w.GoesOn := inferInstanceAs (Decidable (_ ∧ _))

/-- Moves on from the addresses between `a` and `b`. -/
def pass (w : Walk) (a b : Address) : Walk :=
  { w with
    cursor := match w.direction with
      | .up => b
      | .down => a - pageSize }

/-- How far the walk can still get. -/
def ahead (w : Walk) : Nat :=
  match w.direction with
  | .up => w.window.stop - w.cursor
  | .down => w.cursor

theorem ahead_pass_lt {w : Walk} {a b : Nat} (hw : w.GoesOn) (ha : a ≤ w.cursor)
    (hb : w.cursor < b) : (w.pass a b).ahead < w.ahead := by
  obtain ⟨window, direction, cursor⟩ := w
  obtain ⟨hpos, -, hstop⟩ := hw
  cases direction with
  | up => exact Nat.sub_lt_sub_left hstop hb
  | down =>
      rcases Nat.eq_zero_or_pos a with rfl | ha'
      · exact Nat.lt_of_le_of_lt (Nat.sub_le ..) hpos
      · exact Nat.lt_of_lt_of_le (Nat.sub_lt ha' (by decide)) ha

/-- A region is passed in either direction. -/
theorem ahead_pass_region_lt {m : Memory} {w : Walk} {r : Region} (hw : w.GoesOn)
    (hr : m.region? (w.cursor / pageSize) = some r) :
    (w.pass r.start r.stop).ahead < w.ahead := by
  obtain ⟨hfirst, hlast⟩ := Memory.region?_covers hr
  refine ahead_pass_lt hw ?_ ?_
  · exact Nat.le_trans (Nat.mul_le_mul_left pageSize hfirst) (Nat.mul_div_le ..)
  · rw [Region.stop, Nat.mul_comm]
    exact (Nat.div_lt_iff_lt_mul (by decide)).mp hlast

/-- The next free page, and the walk from behind it. -/
def next? (m : Memory) (w : Walk) : Option (Address × Walk) :=
  if _ : w.GoesOn then
    match _ : m.region? (w.cursor / pageSize) with
    | some r => next? m (w.pass r.start r.stop)
    | none => some (w.cursor, w.pass w.cursor (w.cursor + pageSize))
  else none
termination_by w.ahead
decreasing_by exact ahead_pass_region_lt ‹_› ‹_›

theorem next?_of_region {m : Memory} {w : Walk} {r : Region} (hw : w.GoesOn)
    (hr : m.region? (w.cursor / pageSize) = some r) :
    next? m w = next? m (w.pass r.start r.stop) := by
  rw [next?, dif_pos hw]
  split
  · rename_i hsome
    rw [Option.some.inj (hr.symm.trans hsome)]
  · rename_i hnone
    cases hr.symm.trans hnone

theorem next?_of_free {m : Memory} {w : Walk} (hw : w.GoesOn)
    (hr : m.region? (w.cursor / pageSize) = none) :
    next? m w = some (w.cursor, w.pass w.cursor (w.cursor + pageSize)) := by
  rw [next?, dif_pos hw]
  split
  · rename_i hsome
    cases hr.symm.trans hsome
  · rfl

theorem next?_of_not_goesOn (m : Memory) {w : Walk} (hw : ¬ w.GoesOn) : next? m w = none := by
  rw [next?, dif_neg hw]

theorem ahead_lt_of_next? {m : Memory} {w rest : Walk} {a : Address}
    (hnext : next? m w = some (a, rest)) : rest.ahead < w.ahead := by
  induction w using next?.induct m with
  | case1 w hw r hr ih =>
      rw [next?_of_region hw hr] at hnext
      exact Nat.lt_trans (ih hnext) (ahead_pass_region_lt hw hr)
  | case2 w hw hr =>
      rw [next?_of_free hw hr] at hnext
      cases hnext
      exact ahead_pass_lt hw (Nat.le_refl _) (Nat.lt_add_of_pos_right (by decide))
  | case3 w hw =>
      rw [next?_of_not_goesOn m hw] at hnext
      cases hnext

/-- The first free page that suits. -/
def find? (m : Memory) (suits : Address → Bool) (w : Walk) : Option Address :=
  match _ : next? m w with
  | none => none
  | some (a, rest) => if suits a then some a else find? m suits rest
termination_by w.ahead
decreasing_by exact ahead_lt_of_next? ‹_›

theorem find?_of_next?_eq_none {m : Memory} {w : Walk} (suits : Address → Bool)
    (hnext : next? m w = none) : find? m suits w = none := by
  rw [find?]
  split
  · rfl
  · rename_i hsome
    cases hnext.symm.trans hsome

theorem find?_of_next?_eq_some {m : Memory} {w rest : Walk} {a : Address} (suits : Address → Bool)
    (hnext : next? m w = some (a, rest)) :
    find? m suits w = if suits a then some a else find? m suits rest := by
  rw [find?]
  split
  · rename_i hnone
    cases hnext.symm.trans hnone
  · rename_i hsome
    cases hnext.symm.trans hsome
    rfl

end Walk

end HotPatch.Trampoline
