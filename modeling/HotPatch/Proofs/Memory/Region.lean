import HotPatch.Memory.Region

/-!
# What the regions of a range are

The regions that a range meets come in order, each of them a maximal run of equal pages, and no page
between two of them is mapped.
-/

namespace HotPatch.Memory

variable {m : Memory} {r s : Region} {rs : List Region} {n n' seen last last' k : Nat} {p : Page}

structure IsRegion (m : Memory) (r : Region) : Prop where
  nonempty : r.first < r.last
  page_eq : ∀ k, r.first ≤ k → k < r.last → m.page k = some r.page
  before : ∀ k, k + 1 = r.first → m.page k ≠ some r.page
  after : m.page r.last ≠ some r.page

/-! ## The region of a page -/

theorem page_of_runStart_le (hk : m.runStart n ≤ k) (hkn : k ≤ n) : m.page k = m.page n := by
  induction n with
  | zero => rw [Nat.le_zero.mp hkn]
  | succ n ih =>
      rcases Nat.eq_or_lt_of_le hkn with rfl | hlt
      · rfl
      rw [runStart] at hk
      split at hk
      · rename_i heq
        rw [ih hk (by omega), heq]
      · omega

theorem page_before_runStart (h : k + 1 = m.runStart n) : m.page k ≠ m.page n := by
  induction n with
  | zero => simp [runStart] at h
  | succ n ih =>
      rw [runStart] at h
      split at h
      · rename_i heq
        rw [← heq]
        exact ih h
      · rename_i hne
        rwa [Nat.add_right_cancel h]

theorem page_of_lt_runStop {count : Nat} (hn : n ≤ k) (hk : k < m.runStop n count) :
    m.page k = m.page n := by
  induction count generalizing n with
  | zero => rw [show k = n by simp only [runStop] at hk; omega]
  | succ count ih =>
      rcases Nat.eq_or_lt_of_le hn with rfl | hlt
      · rfl
      rw [runStop] at hk
      split at hk
      · rename_i heq
        rw [ih hlt hk, heq]
      · omega

/-- A run that is followed as far as memory goes ends at a different page. -/
theorem page_runStop {count : Nat} (hp : m.page n = some p) (hcount : m.high ≤ n + count) :
    m.page (m.runStop n count) ≠ some p := by
  induction count generalizing n with
  | zero => simpa using absurd (low_le_of_page hp).2 (by omega)
  | succ count ih =>
      rw [runStop]
      split
      · rename_i heq
        exact ih (heq ▸ hp) (by omega)
      · rename_i hne
        rw [← hp]
        exact Ne.symm hne

theorem region?_eq_none_iff : m.region? n = none ↔ m.page n = none := by
  simp [region?]

/-- What is found for a page is the maximal run to which it belongs. -/
theorem isRegion_of_region? (h : m.region? n = some r) :
    m.IsRegion r ∧ r.first ≤ n ∧ n < r.last := by
  obtain ⟨p, hp, rfl⟩ := Option.map_eq_some_iff.mp h
  have hstart := m.runStart_le n
  have hstop := m.lt_runStop n (m.high - n)
  refine ⟨⟨by dsimp only; omega, fun k h₁ h₂ ↦ ?_, fun k hk ↦ ?_, ?_⟩, hstart, hstop⟩
  · rcases Nat.le_total k n with hkn | hnk
    · rw [page_of_runStart_le h₁ hkn, hp]
    · rw [page_of_lt_runStop hnk h₂, hp]
  · rw [← hp]
    exact page_before_runStart hk
  · exact page_runStop hp (by omega)

/-- Two regions that share a page end together, so a page behind the one is behind the other. -/
theorem IsRegion.last_le_first (hr : m.IsRegion r) (hs : m.IsRegion s) (h : r.last < s.last) :
    r.last ≤ s.first := by
  rcases Nat.lt_or_ge s.first r.last with hlt | hle
  case inr => exact hle
  have hlast := hr.nonempty
  -- the last page of `r` and the one behind it both belong to `s`
  have hin : m.page (r.last - 1) = some s.page := hs.page_eq _ (by omega) (by omega)
  have hout : m.page r.last = some s.page := hs.page_eq _ (by omega) h
  rw [hr.page_eq _ (by omega) (by omega)] at hin
  exact absurd (hout.trans hin.symm) hr.after

/-- Two regions that share a page are the same. -/
theorem IsRegion.eq_of_page (hr : m.IsRegion r) (h₁ : r.first ≤ k) (h₂ : k < r.last)
    (hs : m.IsRegion s) (h₁' : s.first ≤ k) (h₂' : k < s.last) : r = s := by
  have hpage : r.page = s.page :=
    Option.some.inj ((hr.page_eq k h₁ h₂).symm.trans (hs.page_eq k h₁' h₂'))
  have hlast : r.last = s.last := by
    rcases Nat.lt_trichotomy r.last s.last with h | h | h
    · have := hr.last_le_first hs h
      omega
    · exact h
    · have := hs.last_le_first hr h
      omega
  have hfirst : r.first = s.first := by
    rcases Nat.lt_trichotomy r.first s.first with h | h | h
    · exact absurd (hpage ▸ hr.page_eq (s.first - 1) (by omega) (by omega))
        (hs.before _ (by omega))
    · exact h
    · exact absurd (hpage ▸ hs.page_eq (r.first - 1) (by omega) (by omega))
        (hr.before _ (by omega))
  cases r
  cases s
  simp_all

/-! ## The regions of a range -/

/-- `rs` are the regions of the pages from `n` up to `last`, in order, some of them perhaps going on
behind `last`. -/
inductive Tiles (m : Memory) (last : Nat) : Nat → List Region → Prop
  | nil {n : Nat} (gap : ∀ k, n ≤ k → k < last → m.page k = none) : Tiles m last n []
  | cons {n : Nat} {r : Region} {rs : List Region}
      (gap : ∀ k, n ≤ k → k < r.first → m.page k = none) (region : m.IsRegion r)
      (meets : n < r.last) (ordered : ∀ s ∈ rs, r.last ≤ s.first) (rest : Tiles m last r.last rs) :
      Tiles m last n (r :: rs)

/-- Pages without a mapping may be added at both ends. -/
theorem Tiles.widen (h : m.Tiles last n rs) (hn : n' ≤ n)
    (hbefore : ∀ k, n' ≤ k → k < n → m.page k = none)
    (hbehind : ∀ k, last ≤ k → k < last' → m.page k = none) : m.Tiles last' n' rs := by
  induction h generalizing n' with
  | @nil n gap =>
      refine .nil fun k h₁ h₂ ↦ ?_
      rcases Nat.lt_or_ge k n with hk | hk
      · exact hbefore k h₁ hk
      rcases Nat.lt_or_ge k last with hlast | hlast
      · exact gap k hk hlast
      · exact hbehind k hlast h₂
  | @cons n r rs gap region meets ordered rest ih =>
      refine .cons (fun k h₁ h₂ ↦ ?_) region (Nat.lt_of_le_of_lt hn meets) ordered
        (ih (Nat.le_refl _) fun k h₁ h₂ ↦ by omega)
      rcases Nat.lt_or_ge k n with hk | hk
      · exact hbefore k h₁ hk
      · exact gap k hk h₂

/-- The regions of the pages from `n` on all reach behind the pages that were seen. -/
theorem seen_lt_last_of_mem {count : Nat} (h : s ∈ m.regionsFrom seen n count) :
    m.IsRegion s ∧ seen < s.last := by
  induction count generalizing seen n with
  | zero => simp [regionsFrom] at h
  | succ count ih =>
      rw [regionsFrom] at h
      split at h
      · exact ih h
      · rename_i hseen
        split at h
        · exact ih h
        · rename_i r hr
          have hregion := isRegion_of_region? hr
          rcases List.mem_cons.mp h with rfl | h
          · exact ⟨hregion.1, by omega⟩
          · have hrest := ih h
            exact ⟨hrest.1, by omega⟩

/-- The regions that are listed leave no mapped page out. -/
theorem tiles_regionsFrom (m : Memory) (seen n count : Nat) :
    m.Tiles (n + count) (max seen n) (m.regionsFrom seen n count) := by
  induction count generalizing seen n with
  | zero => exact .nil fun k h₁ h₂ ↦ by omega
  | succ count ih =>
      have hnext : n + 1 + count = n + (count + 1) := by omega
      rw [regionsFrom]
      split
      · rename_i hseen
        have h := ih seen (n + 1)
        rwa [hnext, show max seen (n + 1) = max seen n by omega] at h
      · rename_i hseen
        have hmax : max seen n = n := by omega
        rw [hmax]
        split
        · rename_i hnone
          have h := ih seen (n + 1)
          rw [hnext, show max seen (n + 1) = n + 1 by omega] at h
          refine h.widen (Nat.le_succ n) (fun k h₁ h₂ ↦ ?_) fun k h₁ h₂ ↦ by omega
          rw [show k = n by omega]
          exact region?_eq_none_iff.mp hnone
        · rename_i r hr
          obtain ⟨hregion, hfirst, hlast⟩ := isRegion_of_region? hr
          have h := ih r.last (n + 1)
          rw [hnext, show max r.last (n + 1) = r.last by omega] at h
          refine .cons (fun k h₁ h₂ ↦ by omega) hregion hlast (fun s hs ↦ ?_) h
          have hs := seen_lt_last_of_mem hs
          exact hregion.last_le_first hs.1 hs.2

/-- The regions that a range meets cover its mapped pages. -/
theorem tiles_regions (m : Memory) (s : Span) :
    m.Tiles ((s.stop - 1) / pageSize + 1) (s.start / pageSize) (m.regions s) := by
  have h := m.tiles_regionsFrom 0 (max (s.start / pageSize) m.low)
    (min ((s.stop - 1) / pageSize + 1) m.high - max (s.start / pageSize) m.low)
  rw [Nat.zero_max] at h
  exact h.widen (by omega) (fun k h₁ h₂ ↦ m.page_eq_none k (by omega))
    fun k h₁ h₂ ↦ m.page_eq_none k (by omega)

end HotPatch.Memory
