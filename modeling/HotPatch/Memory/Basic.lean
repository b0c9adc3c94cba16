/-!
# Memory

An address space: which pages are mapped and how they are protected, and the byte at every address.
Reading and storing here disregard protection; the checked operations are built on them.
-/

namespace HotPatch

/-- Addresses are numbers below `addressLimit`; sums that may leave the range are wrapped where they
are formed. -/
abbrev Address := Nat

def addressLimit : Nat := UInt64.size

abbrev pageSize : Nat := 4096

/-- The address that an integer stands for, modulo `addressLimit`. -/
def Address.wrap (i : Int) : Address := (i % addressLimit).toNat

structure Span where
  start : Address
  stop : Address
  deriving DecidableEq, Repr

def Span.Contains (s : Span) (a : Address) : Prop := s.start ≤ a ∧ a < s.stop

instance (s : Span) (a : Address) : Decidable (s.Contains a) :=
  inferInstanceAs (Decidable (_ ∧ _))

structure Protection where
  read : Bool
  write : Bool
  execute : Bool
  deriving DecidableEq, Repr, Inhabited

namespace Protection

def none : Protection := ⟨false, false, false⟩

def all : Protection := ⟨true, true, true⟩

/-- The names of what is permitted, with bars between. -/
def print (p : Protection) : String :=
  let names := (if p.read then ["READ"] else []) ++ (if p.write then ["WRITE"] else []) ++
    (if p.execute then ["EXECUTE"] else [])
  if names.isEmpty then "NONE" else " | ".intercalate names

/-- Three letters, a dash for what is not permitted. -/
def letters (p : Protection) : String :=
  (if p.read then "r" else "-") ++ (if p.write then "w" else "-") ++
    (if p.execute then "x" else "-")

end Protection

/-- A mapped page. A sealed page never becomes writable. -/
structure Page where
  protection : Protection
  isSealed : Bool
  deriving DecidableEq, Repr, Inhabited

/-- The address space of a process. Page `n` covers the addresses from `n * pageSize` up to but not
including `(n + 1) * pageSize`; the byte at an address without a page has no meaning. -/
structure Memory where
  page : Nat → Option Page
  byte : Address → UInt8
  /-- No page before this one is mapped. -/
  low : Nat
  /-- No page from this one on is mapped. -/
  high : Nat
  page_eq_none : ∀ n, n < low ∨ high ≤ n → page n = none

namespace Memory

def empty : Memory := ⟨fun _ ↦ none, fun _ ↦ 0, 0, 0, fun _ _ ↦ rfl⟩

def Mapped (m : Memory) (a : Address) : Prop := (m.page (a / pageSize)).isSome

def pageReadable (m : Memory) (n : Nat) : Bool :=
  match m.page n with
  | some p => p.protection.read
  | none => false

def Readable (m : Memory) (a : Address) : Prop := m.pageReadable (a / pageSize)

instance (m : Memory) (a : Address) : Decidable (m.Mapped a) :=
  inferInstanceAs (Decidable ((m.page (a / pageSize)).isSome = true))

instance (m : Memory) (a : Address) : Decidable (m.Readable a) :=
  inferInstanceAs (Decidable (m.pageReadable (a / pageSize) = true))

def bytes (m : Memory) (a : Address) (n : Nat) : List UInt8 :=
  (List.range n).map fun i ↦ m.byte (a + i)

def store (m : Memory) (a : Address) (bs : List UInt8) : Memory :=
  let new := bs.toArray
  { m with byte := fun x ↦ if a ≤ x then (new[x - a]?).getD (m.byte x) else m.byte x }

/-- The lower bound when pages from `n` on are added. -/
def lowWith (m : Memory) (n : Nat) : Nat := if m.low < m.high then min m.low n else n

/-- The upper bound when pages up to but not including `n` are added. -/
def highWith (m : Memory) (n : Nat) : Nat := if m.low < m.high then max m.high n else n

def setPage (m : Memory) (n : Nat) (p : Option Page) : Memory where
  page k := if k = n then p else m.page k
  byte := m.byte
  low := m.lowWith n
  high := m.highWith (n + 1)
  page_eq_none k h := by grind [lowWith, highWith, m.page_eq_none k]

/-- Changes what a page permits. Adding the permission to write to a sealed page is refused. -/
def protect (m : Memory) (n : Nat) (q : Protection) : Option Memory :=
  match m.page n with
  | some p =>
    if p.isSealed && q.write then none else some (m.setPage n (some { p with protection := q }))
  | none => none

/-- Maps `count` zeroed pages from page `n` on, over whatever was there. -/
def map (m : Memory) (n count : Nat) (q : Protection) : Memory where
  page k := if n ≤ k ∧ k < n + count then some ⟨q, false⟩ else m.page k
  byte x := if n * pageSize ≤ x ∧ x < (n + count) * pageSize then 0 else m.byte x
  low := m.lowWith n
  high := m.highWith (n + count)
  page_eq_none k h := by grind [lowWith, highWith, m.page_eq_none k]

theorem page_map_self (m : Memory) (n : Nat) (q : Protection) :
    (m.map n 1 q).page n = some ⟨q, false⟩ := if_pos ⟨Nat.le_refl n, Nat.lt_succ_self n⟩

theorem page_map_of_ne {m : Memory} {n k : Nat} {q : Protection} (hne : k ≠ n) :
    (m.map n 1 q).page k = m.page k :=
  if_neg fun h ↦ hne (Nat.le_antisymm (Nat.le_of_lt_succ h.2) h.1)

/-- What `f` says, looked up in a table of its values from `first` on as far as that goes. -/
def lookUp {α : Type} (table : Array α) (first : Nat) (f : Nat → α) (k : Nat) : α :=
  if first ≤ k then (table[k - first]?).getD (f k) else f k

theorem lookUp_ofFn {α : Type} (f : Nat → α) (first count : Nat) :
    lookUp (Array.ofFn fun i : Fin count ↦ f (first + i)) first f = f := by
  funext k
  simp only [lookUp]
  split
  · rename_i h
    by_cases hk : k - first < count
    · simp [hk, Nat.add_sub_cancel' h]
    · simp [hk]
  · rfl

/-- The same address space with its pages looked up in tables from `first` on. -/
def tabulate (m : Memory) (first count : Nat) : Memory where
  page := lookUp (Array.ofFn fun i : Fin count ↦ m.page (first + i)) first m.page
  byte := lookUp (Array.ofFn fun i : Fin (count * pageSize) ↦ m.byte (first * pageSize + i))
    (first * pageSize) m.byte
  low := m.low
  high := m.high
  page_eq_none k h := by rw [lookUp_ofFn, m.page_eq_none k h]

/-! ## What each operation does to pages and bytes -/

@[simp] theorem length_bytes (m : Memory) (a : Address) (n : Nat) : (m.bytes a n).length = n := by
  simp [bytes]

@[simp] theorem page_store (m : Memory) (a : Address) (bs : List UInt8) :
    (m.store a bs).page = m.page := rfl

theorem byte_store (m : Memory) (a : Address) (bs : List UInt8) (x : Address) :
    (m.store a bs).byte x = if a ≤ x then (bs[x - a]?).getD (m.byte x) else m.byte x := by
  simp [store]

@[simp] theorem byte_setPage (m : Memory) (n : Nat) (p : Option Page) :
    (m.setPage n p).byte = m.byte := rfl

theorem low_le_of_page {m : Memory} {n : Nat} {p : Page} (h : m.page n = some p) :
    m.low ≤ n ∧ n < m.high := by
  have := m.page_eq_none n
  grind

theorem bounds_setPage {m : Memory} {n : Nat} {p : Page} (h : m.page n = some p)
    (q : Option Page) : (m.setPage n q).low = m.low ∧ (m.setPage n q).high = m.high := by
  have := low_le_of_page h
  grind [setPage, lowWith, highWith]

theorem page_setPage (m : Memory) (n : Nat) (p : Option Page) (k : Nat) :
    (m.setPage n p).page k = if k = n then p else m.page k := rfl

theorem tabulate_eq (m : Memory) (first count : Nat) : m.tabulate first count = m := by
  simp [tabulate, lookUp_ofFn]

end Memory

end HotPatch
