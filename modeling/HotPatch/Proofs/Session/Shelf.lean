import HotPatch.Session.Shelf

/-!
# What stands on a shelf

Putting something under a number and taking it away, up to the order of what stands there.
-/

namespace HotPatch.Shelf

variable {α : Type} {n : Nat} {x : α} {s : Shelf α}

def Ascending (s : Shelf α) : Prop := s.Pairwise fun a b ↦ a.1 < b.1

theorem ascending_remove (hs : s.Ascending) (n : Nat) : (s.remove n).Ascending := hs.filter _

theorem mem_put {e : Nat × α} (he : e ∈ put n x s) : e = (n, x) ∨ e ∈ s := by
  induction s with
  | nil => exact .inl (List.mem_singleton.mp he)
  | cons d s ih =>
      rw [put] at he
      split at he
      · exact List.mem_cons.mp he
      · split at he
        · exact (List.mem_cons.mp he).imp_right (List.mem_cons_of_mem d)
        · rcases List.mem_cons.mp he with rfl | he
          · exact .inr (List.mem_cons_self ..)
          · exact (ih he).imp_right (List.mem_cons_of_mem d)

theorem ascending_put (hs : s.Ascending) (n : Nat) (x : α) : (s.put n x).Ascending := by
  induction s with
  | nil => exact List.pairwise_singleton _ _
  | cons d s ih =>
      obtain ⟨hd, hrest⟩ := List.pairwise_cons.mp hs
      rw [put]
      split
      · rename_i hlt
        refine List.pairwise_cons.mpr ⟨fun e he ↦ ?_, hs⟩
        rcases List.mem_cons.mp he with rfl | he
        · exact hlt
        · exact Nat.lt_trans hlt (hd e he)
      · split
        · rename_i heq
          exact List.pairwise_cons.mpr ⟨fun e he ↦ heq ▸ hd e he, hrest⟩
        · rename_i hnlt hne
          refine List.pairwise_cons.mpr ⟨fun e he ↦ ?_, ih hrest⟩
          rcases mem_put he with rfl | he
          · exact Nat.lt_of_le_of_ne (Nat.le_of_not_lt hnlt) (Ne.symm hne)
          · exact hd e he

theorem remove_eq_self (h : ∀ e ∈ s, e.1 ≠ n) : s.remove n = s :=
  List.filter_eq_self.mpr fun e he ↦ decide_eq_true (h e he)

theorem remove_cons_self (n : Nat) (x : α) (s : Shelf α) :
    remove n ((n, x) :: s) = remove n s := by
  simp [remove]

theorem remove_cons_of_ne {k : Nat} {y : α} (hne : k ≠ n) :
    remove n ((k, y) :: s) = (k, y) :: remove n s := by
  simp [remove, hne]

/-- What is put on a shelf takes the place of what was there under its number. -/
theorem put_perm (hs : s.Ascending) (n : Nat) (x : α) :
    (s.put n x).Perm ((n, x) :: s.remove n) := by
  induction s with
  | nil => exact .refl _
  | cons d s ih =>
      obtain ⟨k, y⟩ := d
      obtain ⟨hd, hrest⟩ := List.pairwise_cons.mp hs
      rw [put]
      split
      · rename_i hlt
        rw [remove_eq_self fun e he ↦ ?_]
        rcases List.mem_cons.mp he with rfl | he
        · exact Nat.ne_of_gt hlt
        · exact Nat.ne_of_gt (Nat.lt_trans hlt (hd e he))
      · split
        · rename_i heq
          subst heq
          rw [remove_cons_self, remove_eq_self fun e he ↦ Nat.ne_of_gt (hd e he)]
        · rename_i hne
          rw [remove_cons_of_ne (Ne.symm hne)]
          exact ((ih hrest).cons _).trans (.swap _ _ _)

theorem mem_of_get? (hget : s.get? n = some x) : (n, x) ∈ s := by
  induction s with
  | nil => cases hget
  | cons e s ih =>
      rw [get?] at hget
      split at hget
      · rename_i heq
        cases hget
        exact heq ▸ List.mem_cons_self ..
      · exact List.mem_cons_of_mem e (ih hget)

theorem get?_eq_none (h : s.get? n = none) : s.remove n = s := by
  induction s with
  | nil => rfl
  | cons d s ih =>
      obtain ⟨k, y⟩ := d
      rw [get?] at h
      split at h
      · cases h
      · rename_i hne
        rw [remove_cons_of_ne hne, ih h]

theorem perm_of_get? (hs : s.Ascending) (h : s.get? n = some x) :
    s.Perm ((n, x) :: s.remove n) := by
  induction s with
  | nil => cases h
  | cons d s ih =>
      obtain ⟨k, y⟩ := d
      obtain ⟨hd, hrest⟩ := List.pairwise_cons.mp hs
      rw [get?] at h
      split at h
      · rename_i heq
        subst heq
        cases h
        rw [remove_cons_self, remove_eq_self fun e he ↦ Nat.ne_of_gt (hd e he)]
      · rename_i hne
        rw [remove_cons_of_ne hne]
        exact ((ih hrest h).cons _).trans (.swap _ _ _)

end HotPatch.Shelf
