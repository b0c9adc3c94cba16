/-!
# Shelves

Things kept under numbers, in ascending order.
-/

namespace HotPatch

abbrev Shelf (α : Type) := List (Nat × α)

namespace Shelf

variable {α : Type}

def get? (n : Nat) : Shelf α → Option α
  | [] => none
  | (k, x) :: rest => if k = n then some x else get? n rest

/-- Puts `x` under a number, in place of what was there. -/
def put (n : Nat) (x : α) : Shelf α → Shelf α
  | [] => [(n, x)]
  | (k, y) :: rest =>
    if n < k then (n, x) :: (k, y) :: rest
    else if n = k then (n, x) :: rest
    else (k, y) :: put n x rest

theorem get?_put (n k : Nat) (x : α) (s : Shelf α) :
    get? k (put n x s) = if n = k then some x else get? k s := by
  induction s with
  | nil => simp [put, get?]
  | cons e s ih => grind [put, get?]

def remove (n : Nat) (s : Shelf α) : Shelf α := s.filter fun e ↦ e.1 ≠ n

end Shelf

end HotPatch
