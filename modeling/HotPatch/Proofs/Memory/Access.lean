import HotPatch.Memory.Access
import HotPatch.Proofs.Memory.Region

/-!
# The access check is exact

A range may be read when each of its addresses may. Otherwise its first address that may not be read
decides the error, whatever regions the range meets and wherever they start and end.
-/

namespace HotPatch.Memory

variable {m : Memory} {r : Region} {rs : List Region} {a b b' cursor len stop n last x : Nat}
  {e e' : MemoryError}

/-! ## Addresses of a region -/

theorem lt_pageSize_mul_iff : x < pageSize * n ↔ x / pageSize < n := by
  rw [Nat.mul_comm]
  exact (Nat.div_lt_iff_lt_mul (by decide)).symm

theorem pageSize_mul_le_iff : pageSize * n ≤ x ↔ n ≤ x / pageSize := by
  rw [Nat.mul_comm]
  exact (Nat.le_div_iff_mul_le (by decide)).symm

/-- The page of the last address before `stop` reaches up to `stop`. -/
theorem le_pageSize_mul_last (stop : Nat) : stop ≤ pageSize * ((stop - 1) / pageSize + 1) :=
  Nat.le_of_pred_lt (lt_pageSize_mul_iff.mpr (Nat.lt_succ_self _))

theorem IsRegion.page_of_mem (h : m.IsRegion r) (hstart : r.start ≤ x) (hstop : x < r.stop) :
    m.page (x / pageSize) = some r.page :=
  h.page_eq _ (pageSize_mul_le_iff.mp hstart) (lt_pageSize_mul_iff.mp hstop)

theorem IsRegion.readable_iff (h : m.IsRegion r) (hstart : r.start ≤ x) (hstop : x < r.stop) :
    m.Readable x ↔ r.page.protection.read = true := by
  simp only [Readable, pageReadable, h.page_of_mem hstart hstop]

theorem mapped_of_readable (h : m.Readable x) : m.Mapped x := by
  unfold Readable pageReadable at h
  unfold Mapped
  cases hp : m.page (x / pageSize) <;> simp_all

theorem not_mapped_of_page (h : m.page (x / pageSize) = none) : ¬ m.Mapped x := by
  simp [Mapped, h]

/-- No address from one on page `n` up to page `k` is mapped if none of these pages is there. -/
theorem not_mapped_of_gap {k : Nat} (gap : ∀ i, n ≤ i → i < k → m.page i = none)
    (hn : cursor / pageSize = n) (hle : cursor ≤ x) (hlt : x < pageSize * k) : ¬ m.Mapped x :=
  not_mapped_of_page (gap _ (hn ▸ Nat.div_le_div_right hle) (lt_pageSize_mul_iff.mp hlt))

/-! ## The address that decides -/

structure FirstUnreadable (m : Memory) (a stop b : Nat) : Prop where
  start_le : a ≤ b
  lt_stop : b < stop
  not_readable : ¬ m.Readable b
  readable_before : ∀ x, a ≤ x → x < b → m.Readable x

/-- The error for a range up to `stop` of which `b` is the first address that may not be read: what
is left from `b` on, if nothing is mapped there, and otherwise the region of `b`. -/
inductive Decides (m : Memory) (stop b : Nat) : MemoryError → Prop
  | uncommitted (h : ¬ m.Mapped b) : Decides m stop b (.uncommitted b (stop - b))
  | protection {r : Region} (region : m.IsRegion r) (h₁ : r.start ≤ b) (h₂ : b < r.stop) :
      Decides m stop b (.protection r.start r.page.protection)

theorem FirstUnreadable.unique (h : m.FirstUnreadable a stop b) (h' : m.FirstUnreadable a stop b') :
    b = b' := by
  rcases Nat.lt_trichotomy b b' with hlt | heq | hlt
  · exact absurd (h'.readable_before b h.start_le hlt) h.not_readable
  · exact heq
  · exact absurd (h.readable_before b' h'.start_le hlt) h'.not_readable

theorem Decides.unique (h : m.Decides stop b e) (h' : m.Decides stop b e') : e = e' := by
  cases h with
  | uncommitted hnot =>
      cases h' with
      | uncommitted => rfl
      | protection region h₁ h₂ => simp [Mapped, region.page_of_mem h₁ h₂] at hnot
  | protection region h₁ h₂ =>
      cases h' with
      | uncommitted hnot => simp [Mapped, region.page_of_mem h₁ h₂] at hnot
      | protection region' h₁' h₂' =>
          rw [region.eq_of_page (pageSize_mul_le_iff.mp h₁) (lt_pageSize_mul_iff.mp h₂) region'
            (pageSize_mul_le_iff.mp h₁') (lt_pageSize_mul_iff.mp h₂')]

theorem firstUnreadable_self (hlt : a < stop) (h : ¬ m.Readable a) :
    m.FirstUnreadable a stop a where
  start_le := Nat.le_refl a
  lt_stop := hlt
  not_readable := h
  readable_before x h₁ h₂ := by omega

theorem FirstUnreadable.of_readable (h : m.FirstUnreadable n stop b) (hle : a ≤ n)
    (hread : ∀ x, a ≤ x → x < n → m.Readable x) : m.FirstUnreadable a stop b where
  start_le := Nat.le_trans hle h.start_le
  lt_stop := h.lt_stop
  not_readable := h.not_readable
  readable_before x h₁ h₂ :=
    (Nat.lt_or_ge x n).elim (hread x h₁) fun hx ↦ h.readable_before x hx h₂

/-- The loop over the regions finds the first address that may not be read. -/
theorem accessRegions_cases (ht : m.Tiles last n rs) (hn : cursor / pageSize = n)
    (hlt : cursor < stop) (hstop : stop ≤ pageSize * last) :
    (accessRegions stop cursor rs = .ok () ∧ ∀ x, cursor ≤ x → x < stop → m.Readable x) ∨
      ∃ b e, accessRegions stop cursor rs = .error e ∧ m.FirstUnreadable cursor stop b ∧
        m.Decides stop b e := by
  induction ht generalizing cursor with
  | @nil n gap =>
      have hnot := not_mapped_of_gap gap hn (Nat.le_refl _) (Nat.lt_of_lt_of_le hlt hstop)
      exact .inr ⟨cursor, _, rfl, firstUnreadable_self hlt (mt mapped_of_readable hnot),
        .uncommitted hnot⟩
  | @cons n r rs gap region meets ordered rest ih =>
      simp only [accessRegions]
      split
      · rename_i hgap
        have hnot := not_mapped_of_gap gap hn (Nat.le_refl _) hgap
        exact .inr ⟨cursor, _, rfl, firstUnreadable_self hlt (mt mapped_of_readable hnot),
          .uncommitted hnot⟩
      rename_i hstart
      have hstart : r.start ≤ cursor := Nat.le_of_not_lt hstart
      have hinside : cursor < r.stop := lt_pageSize_mul_iff.mpr (hn ▸ meets)
      split
      · rename_i hunreadable
        refine .inr ⟨cursor, _, rfl, firstUnreadable_self hlt ?_, .protection region hstart hinside⟩
        simpa [region.readable_iff hstart hinside] using hunreadable
      rename_i hreadable
      have hread : ∀ x, cursor ≤ x → x < r.stop → m.Readable x := fun x h₁ h₂ ↦
        (region.readable_iff (Nat.le_trans hstart h₁) h₂).mpr (by simpa using hreadable)
      rw [Nat.max_eq_right (Nat.le_of_lt hinside)]
      split
      · rename_i hend
        exact .inl ⟨rfl, fun x h₁ h₂ ↦ hread x h₁ (Nat.lt_of_lt_of_le h₂ hend)⟩
      rename_i hend
      have hlt' := Nat.lt_of_not_le hend
      rcases ih (Nat.mul_div_cancel_left _ (by decide)) hlt' with
        ⟨hok, hrest⟩ | ⟨b, e, herror, hfirst, hdecides⟩
      · exact .inl ⟨hok, fun x h₁ h₂ ↦
          (Nat.lt_or_ge x r.stop).elim (hread x h₁) fun hx ↦ hrest x hx h₂⟩
      · exact .inr ⟨b, e, herror, hfirst.of_readable (Nat.le_of_lt hinside) hread, hdecides⟩

/-- A range of the address space may be read, or its first address that may not decides why. -/
theorem checkAccess_cases (hlen : len ≠ 0) (hlimit : a + len < addressLimit) :
    (m.checkAccess a len = .ok () ∧ ∀ x, a ≤ x → x < a + len → m.Readable x) ∨
      ∃ b e, m.checkAccess a len = .error e ∧ m.FirstUnreadable a (a + len) b ∧
        m.Decides (a + len) b e := by
  rw [checkAccess, if_neg hlen, if_neg (Nat.not_le.mpr hlimit)]
  exact accessRegions_cases (m.tiles_regions ⟨a, a + len⟩) rfl (by omega) (le_pageSize_mul_last _)

/-- A range may be read when each of its addresses may. -/
theorem checkAccess_eq_ok_iff (m : Memory) (a len : Nat) :
    m.checkAccess a len = .ok () ↔
      (len ≠ 0 → a + len < addressLimit) ∧ ∀ x, a ≤ x → x < a + len → m.Readable x := by
  by_cases hlen : len = 0
  · rw [checkAccess, if_pos hlen]
    exact iff_of_true rfl ⟨absurd hlen, fun x h₁ h₂ ↦ by omega⟩
  by_cases hlimit : addressLimit ≤ a + len
  · rw [checkAccess, if_neg hlen, if_pos hlimit]
    exact iff_of_false (by simp) fun h ↦ absurd (h.1 hlen) (Nat.not_lt.mpr hlimit)
  have hlimit := Nat.lt_of_not_le hlimit
  rcases checkAccess_cases hlen hlimit with ⟨hok, hall⟩ | ⟨b, e, herror, hfirst, -⟩
  · exact iff_of_true hok ⟨fun _ ↦ hlimit, hall⟩
  · rw [herror]
    exact iff_of_false (by simp) fun h ↦
      hfirst.not_readable (h.2 b hfirst.start_le hfirst.lt_stop)

/-- The errors of the check: a range that runs over the address space, or what the first address
that may not be read decides. -/
theorem checkAccess_eq_error_iff (m : Memory) (a len : Nat) (e : MemoryError) :
    m.checkAccess a len = .error e ↔
      len ≠ 0 ∧ addressLimit ≤ a + len ∧ e = .uncommitted a len ∨
        a + len < addressLimit ∧
          ∃ b, m.FirstUnreadable a (a + len) b ∧ m.Decides (a + len) b e := by
  by_cases hlen : len = 0
  · rw [checkAccess, if_pos hlen]
    refine iff_of_false (by simp) fun h ↦ ?_
    rcases h with ⟨hne, -⟩ | ⟨-, b, hfirst, -⟩
    · exact hne hlen
    · have hlt := Nat.lt_of_le_of_lt hfirst.start_le hfirst.lt_stop
      omega
  by_cases hlimit : addressLimit ≤ a + len
  · rw [checkAccess, if_neg hlen, if_pos hlimit]
    simp only [Except.error.injEq, hlen, hlimit, Nat.not_lt.mpr hlimit, ne_eq, not_false_eq_true,
      true_and, false_and, or_false]
    exact eq_comm
  have hlt := Nat.lt_of_not_le hlimit
  simp only [hlimit, hlt, false_and, and_false, false_or, true_and]
  rcases checkAccess_cases (m := m) hlen hlt with ⟨hok, hall⟩ | ⟨b, e', herror, hfirst, hdecides⟩
  · rw [hok]
    exact iff_of_false (by simp) fun ⟨b, hfirst, _⟩ ↦
      hfirst.not_readable (hall b hfirst.start_le hfirst.lt_stop)
  · rw [herror, Except.error.injEq]
    constructor
    · rintro rfl
      exact ⟨b, hfirst, hdecides⟩
    · rintro ⟨b', hfirst', hdecides'⟩
      obtain rfl := hfirst.unique hfirst'
      exact hdecides.unique hdecides'

def Accessible (m : Memory) (a len : Nat) : Prop :=
  (len ≠ 0 → a + len < addressLimit) ∧ ∀ x, a ≤ x → x < a + len → m.Readable x

/-- Reading succeeds exactly if the whole range is accessible. -/
theorem readBytes_eq_ok_iff {bs : List UInt8} :
    m.readBytes a len = .ok bs ↔ m.Accessible a len ∧ bs = m.bytes a len := by
  have hcheck := m.checkAccess_eq_ok_iff a len
  rw [readBytes]
  cases h : m.checkAccess a len with
  | ok u =>
      have haccessible : m.Accessible a len := hcheck.mp h
      simp [haccessible, eq_comm]
  | error e =>
      rw [h] at hcheck
      exact iff_of_false nofun fun hbs ↦ nomatch hcheck.mpr hbs.1

/-- Access is granted exactly to the ranges all of whose addresses may be read, and to the empty
ones; a range of the address space is refused for its first address that may not be read; and what
is read is what the range holds, or that same refusal. -/
theorem checkAccess_exact (m : Memory) (a len : Nat) :
    (m.checkAccess a len = .ok () ↔
        len = 0 ∨ a + len < addressLimit ∧ ∀ x, a ≤ x → x < a + len → m.Mapped x ∧ m.Readable x) ∧
      (∀ e, m.checkAccess a len = .error e ↔
        len ≠ 0 ∧ addressLimit ≤ a + len ∧ e = .uncommitted a len ∨
          a + len < addressLimit ∧
            ∃ b, m.FirstUnreadable a (a + len) b ∧ m.Decides (a + len) b e) ∧
      (∀ bs, m.readBytes a len = .ok bs ↔ m.checkAccess a len = .ok () ∧ bs = m.bytes a len) ∧
      ∀ e, m.readBytes a len = .error e ↔ m.checkAccess a len = .error e := by
  refine ⟨?_, checkAccess_eq_error_iff m a len, ?_, ?_⟩
  · rw [checkAccess_eq_ok_iff]
    by_cases hlen : len = 0
    · exact iff_of_true ⟨absurd hlen, fun x h₁ h₂ ↦ by omega⟩ (.inl hlen)
    · simp only [hlen, ne_eq, not_false_eq_true, true_imp_iff, false_or]
      exact and_congr_right fun _ ↦ forall₃_congr fun x _ _ ↦
        ⟨fun h ↦ ⟨mapped_of_readable h, h⟩, fun h ↦ h.2⟩
  · intro bs
    rw [readBytes]
    cases m.checkAccess a len <;> simp [eq_comm]
  · intro e
    rw [readBytes]
    cases m.checkAccess a len <;> simp

end HotPatch.Memory
