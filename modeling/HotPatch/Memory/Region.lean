import HotPatch.Memory.Basic

/-!
# Regions

The mapped pages form regions, maximal runs of equal pages. What is asked of a range of addresses is
asked of the regions that it meets.
-/

namespace HotPatch

/-- The pages from `first` up to but not including `last`, which are all alike. -/
structure Region where
  first : Nat
  last : Nat
  page : Page
  deriving DecidableEq, Repr

namespace Region

def start (r : Region) : Address := pageSize * r.first

def stop (r : Region) : Address := pageSize * r.last

/-- The part of the region that lies in `s`. -/
def clip (r : Region) (s : Span) : Span := ⟨max r.start s.start, min r.stop s.stop⟩

end Region

namespace Memory

/-- The first page of the maximal run of equal pages that ends with page `n`. -/
def runStart (m : Memory) : Nat → Nat
  | 0 => 0
  | n + 1 => if m.page n = m.page (n + 1) then m.runStart n else n + 1

/-- The page behind the run of equal pages that starts with page `n`, which is followed for `count`
pages at the most. -/
def runStop (m : Memory) (n : Nat) : Nat → Nat
  | 0 => n + 1
  | count + 1 => if m.page n = m.page (n + 1) then m.runStop (n + 1) count else n + 1

/-- The region that page `n` belongs to. -/
def region? (m : Memory) (n : Nat) : Option Region :=
  (m.page n).map fun p ↦ ⟨m.runStart n, m.runStop n (m.high - n), p⟩

theorem runStart_le (m : Memory) (n : Nat) : m.runStart n ≤ n := by
  induction n with
  | zero => exact Nat.le_refl 0
  | succ n ih =>
      rw [runStart]
      split
      · exact Nat.le_succ_of_le ih
      · exact Nat.le_refl _

theorem lt_runStop (m : Memory) (n count : Nat) : n < m.runStop n count := by
  induction count generalizing n with
  | zero => exact Nat.lt_succ_self n
  | succ count ih =>
      rw [runStop]
      split
      · exact Nat.lt_of_succ_lt (ih (n + 1))
      · exact Nat.lt_succ_self n

/-- A page belongs to its region. -/
theorem region?_covers {m : Memory} {n : Nat} {r : Region} (h : m.region? n = some r) :
    r.first ≤ n ∧ n < r.last := by
  obtain ⟨p, -, rfl⟩ := Option.map_eq_some_iff.mp h
  exact ⟨m.runStart_le n, m.lt_runStop n _⟩

/-- The regions of the `count` pages from `n` on, apart from pages before `seen`. -/
def regionsFrom (m : Memory) (seen n : Nat) : Nat → List Region
  | 0 => []
  | count + 1 =>
    if n < seen then m.regionsFrom seen (n + 1) count
    else
      match m.region? n with
      | none => m.regionsFrom seen (n + 1) count
      | some r => r :: m.regionsFrom r.last (n + 1) count

/-- The regions that `s` meets, in order. Only pages within the bounds of the memory are looked
at. -/
def regions (m : Memory) (s : Span) : List Region :=
  let first := max (s.start / pageSize) m.low
  let last := min ((s.stop - 1) / pageSize + 1) m.high
  m.regionsFrom 0 first (last - first)

end Memory

end HotPatch
