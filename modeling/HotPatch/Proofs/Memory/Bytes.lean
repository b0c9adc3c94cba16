import HotPatch.Memory.Basic

/-!
# Stored bytes

What is read back after a store, and which stores cancel one another.
-/

namespace HotPatch.Memory

variable {m m' : Memory} {bs cs : List UInt8} {a k n x : Nat}

theorem ext_page_byte (hpage : m.page = m'.page) (hbyte : m.byte = m'.byte)
    (hlow : m.low = m'.low) (hhigh : m.high = m'.high) : m = m' := by
  cases m
  cases m'
  simp_all

theorem getElem?_bytes (m : Memory) (a n i : Nat) :
    (m.bytes a n)[i]? = if i < n then some (m.byte (a + i)) else none := by
  by_cases h : i < n <;> simp [bytes, h]

theorem bytes_succ (m : Memory) (a n : Nat) :
    m.bytes a (n + 1) = m.byte a :: m.bytes (a + 1) n := by
  simp only [bytes, List.range_succ_eq_map, List.map_cons, List.map_map, Nat.add_zero]
  congr 1
  apply List.map_congr_left
  intro i _
  exact congrArg m.byte (Nat.add_right_comm a i 1)

theorem bytes_add (m : Memory) (a n k : Nat) :
    m.bytes a (n + k) = m.bytes a n ++ m.bytes (a + n) k := by
  induction n generalizing a with
  | zero =>
      rw [Nat.zero_add, Nat.add_zero]
      rfl
  | succ n ih =>
      rw [Nat.succ_add, bytes_succ, bytes_succ, ih, Nat.add_assoc, Nat.add_comm 1]
      rfl

theorem bytes_congr (h : ∀ x : Nat, a ≤ x → x < a + n → m.byte x = m'.byte x) :
    m.bytes a n = m'.bytes a n := by
  apply List.ext_getElem?
  intro i
  simp only [getElem?_bytes]
  by_cases hi : i < n
  · rw [if_pos hi, if_pos hi, h (a + i) (by omega) (by omega)]
  · rw [if_neg hi, if_neg hi]

theorem byte_store_of_not_mem (h : ¬ (a ≤ x ∧ x < a + bs.length)) :
    (m.store a bs).byte x = m.byte x := by
  rw [byte_store]
  by_cases ha : a ≤ x
  · rw [if_pos ha, List.getElem?_eq_none (by omega), Option.getD_none]
  · rw [if_neg ha]

theorem byte_store_of_mem (ha : a ≤ x) (hx : x < a + bs.length) :
    (m.store a bs).byte x = bs.getD (x - a) 0 := by
  have hlt : x - a < bs.length := by omega
  simp [byte_store, ha, hlt]

@[simp] theorem store_nil (m : Memory) (a : Nat) : m.store a [] = m :=
  ext_page_byte rfl (funext fun _ ↦ byte_store_of_not_mem (by simp)) rfl rfl

@[simp] theorem bytes_store (m : Memory) (a : Nat) (bs : List UInt8) :
    (m.store a bs).bytes a bs.length = bs := by
  apply List.ext_getElem?
  intro i
  rw [getElem?_bytes]
  by_cases hi : i < bs.length
  · rw [if_pos hi, byte_store_of_mem (by omega) (by omega)]
    simp [hi]
  · rw [if_neg hi, List.getElem?_eq_none (by omega)]

@[simp] theorem store_bytes (m : Memory) (a n : Nat) : m.store a (m.bytes a n) = m := by
  refine ext_page_byte rfl (funext fun (x : Nat) ↦ ?_) rfl rfl
  by_cases h : a ≤ x ∧ x < a + n
  · have hlt : x - a < n := by omega
    rw [byte_store_of_mem h.1 (by simpa using h.2), List.getD_eq_getElem?_getD, getElem?_bytes,
      if_pos hlt, Option.getD_some, Nat.add_sub_cancel' h.1]
  · exact byte_store_of_not_mem (by simpa using h)

theorem store_of_bytes (h : m.bytes a n = bs) : m.store a bs = m := by
  rw [← h, store_bytes]

/-- The later of two stores to one range is the one that counts. -/
theorem store_store (h : bs.length = cs.length) :
    (m.store a bs).store a cs = m.store a cs := by
  refine ext_page_byte rfl (funext fun (x : Nat) ↦ ?_) rfl rfl
  by_cases hx : a ≤ x ∧ x < a + cs.length
  · rw [byte_store_of_mem hx.1 hx.2, byte_store_of_mem hx.1 hx.2]
  · rw [byte_store_of_not_mem hx, byte_store_of_not_mem hx, byte_store_of_not_mem (by omega)]

theorem store_append (m : Memory) (a : Nat) (bs cs : List UInt8) :
    m.store a (bs ++ cs) = (m.store a bs).store (a + bs.length) cs := by
  refine ext_page_byte rfl (funext fun (x : Nat) ↦ ?_) rfl rfl
  by_cases hlow : x < a + bs.length
  · rw [byte_store_of_not_mem (m := m.store a bs) (by omega), byte_store, byte_store]
    by_cases ha : a ≤ x
    · rw [if_pos ha, if_pos ha, List.getElem?_append_left (by omega)]
    · rw [if_neg ha, if_neg ha]
  · have hrest : a + bs.length ≤ x := by omega
    have ha : a ≤ x := by omega
    rw [byte_store, if_pos ha, byte_store, if_pos hrest, byte_store_of_not_mem (by omega),
      List.getElem?_append_right (by omega), Nat.sub_sub]

theorem store_take_drop (m : Memory) (a j : Nat) (hk : k ≤ bs.length) :
    (m.store a (bs.take k)).store (a + k) ((bs.drop k).take j) = m.store a (bs.take (k + j)) := by
  have hlen : (bs.take k).length = k := by rw [List.length_take, Nat.min_eq_left hk]
  rw [List.take_add, store_append, hlen]

theorem store_store_of_bytes (hb : m.bytes a n = bs) (h : cs.length = n) :
    (m.store a cs).store a bs = m := by
  have hlen : bs.length = n := by rw [← hb, length_bytes]
  rw [store_store (h.trans hlen.symm), store_of_bytes hb]

theorem take_bytes (m : Memory) (a : Nat) (hk : k ≤ n) :
    (m.bytes a n).take k = m.bytes a k := by
  rw [bytes, bytes, ← List.map_take, List.take_range, Nat.min_eq_left hk]

theorem drop_bytes (m : Memory) (a : Nat) (hk : k ≤ n) :
    (m.bytes a n).drop k = m.bytes (a + k) (n - k) := by
  obtain ⟨j, rfl⟩ := Nat.exists_eq_add_of_le hk
  rw [bytes_add, List.drop_left' (length_bytes ..), Nat.add_sub_cancel_left]

end HotPatch.Memory
