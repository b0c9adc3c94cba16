import HotPatch.Proofs.Trampoline.Pool

/-!
# Where pages are mapped

The walk upward comes first, so that a request goes to the lowest free page from the page of its
origin on, and to the highest one before it only if there is none. What is asked of that page is
that it is free; of the pages behind it nothing is asked.
-/

namespace HotPatch.Trampoline

variable {m : Memory} {w : Span} {origin a : Address} {length o n k size : Nat}

namespace Pool

structure Around (w : Span) (origin : Address) : Prop where
  pageSize_le : pageSize ≤ origin
  start_le : w.start ≤ origin / pageSize * pageSize
  lt_stop : origin / pageSize * pageSize < w.stop
  stop_lt : w.stop < addressLimit

theorem window_start (origin : Address) : (window origin).start = origin - reach := rfl

theorem window_stop (origin : Address) :
    (window origin).stop = min (origin + reach) (addressLimit - 1) := rfl

/-- The window is cut off at the end of the address space only. -/
theorem window_eq (hlimit : origin + reach < addressLimit) :
    window origin = ⟨origin - reach, origin + reach⟩ := by
  have hstop : min (origin + reach) (addressLimit - 1) = origin + reach :=
    Nat.min_eq_left (Nat.le_sub_one_of_lt hlimit)
  rw [window, hstop]

theorem around_window (hpage : pageSize ≤ origin) (hlimit : origin < addressLimit) :
    Around (window origin) origin := by
  refine ⟨hpage, ?_, ?_, ?_⟩ <;>
    simp only [window_start, window_stop, reach, addressLimit, UInt64.size, pageSize,
      Address] at * <;>
    omega

/-- The page that is taken of those on offer: the lowest one from page `o` on, or the highest one
before it if there is none. The first page of the address space never is. -/
def Nearest (m : Memory) (w : Span) (length o n : Nat) : Prop :=
  Offered m w length n ∧
    (o ≤ n ∧ (∀ k, Offered m w length k → o ≤ k → n ≤ k) ∨
      0 < n ∧ n < o ∧ ∀ k, Offered m w length k → k ≤ n)

theorem Nearest.pos (ho : 0 < o) (hn : Nearest m w length o n) : 0 < n := by
  obtain ⟨-, ⟨hle, -⟩ | ⟨hpos, -⟩⟩ := hn
  · exact Nat.lt_of_lt_of_le ho hle
  · exact hpos

/-- There is one nearest page at the most. -/
theorem Nearest.unique (hn : Nearest m w length o n) (hk : Nearest m w length o k) : n = k := by
  obtain ⟨hofferedn, ⟨hlen, hminn⟩ | ⟨hposn, hltn, hmaxn⟩⟩ := hn <;>
    obtain ⟨hofferedk, ⟨hlek, hmink⟩ | ⟨hposk, hltk, hmaxk⟩⟩ := hk
  · exact Nat.le_antisymm (hminn k hofferedk hlek) (hmink n hofferedn hlen)
  · have := hmaxk n hofferedn
    omega
  · have := hmaxn k hofferedk
    omega
  · exact Nat.le_antisymm (hmaxk n hofferedn) (hmaxn k hofferedk)

theorem start_cursor (origin : Address) (w : Span) (d : Direction) :
    (Walk.start origin w d).cursor = origin / pageSize * pageSize := by
  simp only [Walk.start, Address, pageSize]
  omega

theorem fits_iff (hw : w.stop < addressLimit) : fits w length a = true ↔ a + length ≤ w.stop := by
  rw [fits, Bool.and_eq_true, decide_eq_true_iff, decide_eq_true_iff]
  exact and_iff_right_of_imp fun h ↦ Nat.lt_of_le_of_lt h hw

theorem inStep_start (hw : Around w origin) (d : Direction) : (Walk.start origin w d).InStep := by
  refine ⟨Walk.aligned_start origin w d, ?_⟩
  rw [start_cursor]
  cases d with
  | up =>
      refine ⟨?_, hw.start_le⟩
      exact Nat.mul_pos (Nat.div_pos hw.pageSize_le (by decide)) (by decide)
  | down => exact hw.lt_stop

/-- Upward everything on offer from the page of the origin on is found. -/
theorem offers_up_iff (hw : Around w origin) (hlength : 0 < length) :
    Walk.Offers m (fits w length) (Walk.start origin w .up) n ↔
      Offered m w length n ∧ origin / pageSize ≤ n := by
  obtain ⟨-, hstart, -, hstop⟩ := hw
  simp only [Walk.Offers, Walk.Ahead, fits_iff hstop, start_cursor]
  constructor
  · rintro ⟨⟨hcursor, -⟩, hfree, hfits⟩
    have hle := Nat.le_of_mul_le_mul_right hcursor (by decide)
    exact ⟨⟨hfree, Nat.le_trans hstart hcursor, hfits⟩, hle⟩
  · rintro ⟨⟨hfree, -, hfits⟩, hle⟩
    exact ⟨⟨Nat.mul_le_mul_right pageSize hle,
      Nat.lt_of_lt_of_le (Nat.lt_add_of_pos_right hlength) hfits⟩, hfree, hfits⟩

/-- Downward everything on offer up to the page of the origin is found, except for the first page of
the address space. -/
theorem offers_down_iff (hw : Around w origin) :
    Walk.Offers m (fits w length) (Walk.start origin w .down) n ↔
      Offered m w length n ∧ 0 < n ∧ n ≤ origin / pageSize := by
  simp only [Walk.Offers, Walk.Ahead, fits_iff hw.stop_lt, start_cursor]
  constructor
  · rintro ⟨⟨hcursor, hstart, hpos⟩, hfree, hfits⟩
    exact ⟨⟨hfree, hstart, hfits⟩, hpos, Nat.le_of_mul_le_mul_right hcursor (by decide)⟩
  · rintro ⟨⟨hfree, hstart, hfits⟩, hpos, hle⟩
    exact ⟨⟨Nat.mul_le_mul_right pageSize hle, hstart, hpos⟩, hfree, hfits⟩

theorem origin_page_pos (hw : Around w origin) : 0 < origin / pageSize :=
  Nat.div_pos hw.pageSize_le (by decide)

/-- Nothing is found only if nothing is on offer but the first page of the address space. -/
theorem place?_eq_none_iff (hw : Around w origin) (hlength : 0 < length) :
    place? m w origin length = none ↔ ∀ n, Offered m w length n → n = 0 := by
  have hup : (Walk.start origin w .up).find? m (fits w length) = none ↔
      ∀ n, Offered m w length n → n < origin / pageSize := by
    simp only [Walk.find?_eq_none_iff (inStep_start hw .up), offers_up_iff hw hlength, not_and,
      Nat.not_le]
  have hdown : (Walk.start origin w .down).find? m (fits w length) = none ↔
      ∀ n, Offered m w length n → 0 < n → origin / pageSize < n := by
    simp only [Walk.find?_eq_none_iff (inStep_start hw .down), offers_down_iff hw, not_and,
      Nat.not_le]
  have hpos := origin_page_pos hw
  unfold place?
  split
  · rename_i a hfound
    rw [hfound] at hup
    refine iff_of_false nofun fun hnone ↦ nomatch hup.mpr fun n hn ↦ ?_
    rw [hnone n hn]
    exact hpos
  · rename_i hfound
    have hbefore := hup.mp hfound
    rw [hdown]
    refine forall₂_congr fun n hn ↦ ?_
    exact ⟨fun h ↦ Nat.eq_zero_of_not_pos fun hposn ↦ Nat.lt_asymm (h hposn) (hbefore n hn),
      fun h hposn ↦ absurd h (Nat.ne_of_gt hposn)⟩

theorem nearest_of_place? (hw : Around w origin) (hlength : 0 < length)
    (hplace : place? m w origin length = some a) :
    ∃ n, a = n * pageSize ∧ Nearest m w length (origin / pageSize) n := by
  unfold place? at hplace
  split at hplace
  · rename_i hfound
    rw [hplace, Walk.find?_eq_some_iff (inStep_start hw .up)] at hfound
    obtain ⟨n, ha, hn, hfirst⟩ := hfound
    obtain ⟨hoffered, hle⟩ := (offers_up_iff hw hlength).mp hn
    refine ⟨n, ha, hoffered, .inl ⟨hle, fun k hk hlek ↦ ?_⟩⟩
    rcases hfirst k ((offers_up_iff hw hlength).mpr ⟨hk, hlek⟩) with rfl | hsooner
    · exact Nat.le_refl k
    · exact Nat.le_of_lt hsooner
  · rename_i hfound
    rw [Walk.find?_eq_none_iff (inStep_start hw .up)] at hfound
    -- all that is on offer lies before the origin, so the walk downward comes by the highest first
    have hbefore (k : Nat) (hk : Offered m w length k) : k < origin / pageSize :=
      Nat.lt_of_not_le fun hle ↦ hfound k ((offers_up_iff hw hlength).mpr ⟨hk, hle⟩)
    obtain ⟨n, ha, hn, hfirst⟩ := (Walk.find?_eq_some_iff (inStep_start hw .down)).mp hplace
    obtain ⟨hoffered, hpos, -⟩ := (offers_down_iff hw).mp hn
    refine ⟨n, ha, hoffered, .inr ⟨hpos, hbefore n hoffered, fun k hk ↦ ?_⟩⟩
    rcases Nat.eq_zero_or_pos k with rfl | hposk
    · exact Nat.zero_le n
    rcases hfirst k ((offers_down_iff hw).mpr ⟨hk, hposk, Nat.le_of_lt (hbefore k hk)⟩) with
      rfl | hsooner
    · exact Nat.le_refl k
    · exact Nat.le_of_lt hsooner

/-- What is found is the nearest page on offer. -/
theorem place?_eq_some_iff (hw : Around w origin) (hlength : 0 < length) :
    place? m w origin length = some a ↔
      ∃ n, a = n * pageSize ∧ Nearest m w length (origin / pageSize) n := by
  refine ⟨nearest_of_place? hw hlength, ?_⟩
  rintro ⟨n, rfl, hn⟩
  cases hplace : place? m w origin length with
  | none =>
      have hzero := (place?_eq_none_iff hw hlength).mp hplace n hn.1
      exact absurd hzero (Nat.ne_of_gt (hn.pos (origin_page_pos hw)))
  | some a =>
      obtain ⟨k, rfl, hk⟩ := nearest_of_place? hw hlength hplace
      rw [hn.unique hk]

/-! ## What is mapped over -/

/-- The request is served from pages mapped for it, of which page `n` is the first. -/
def Maps (pool : Pool) (m : Memory) (origin : Address) (size n : Nat) : Prop :=
  reuse? (window origin) size pool.pages = none ∧
    place? m (window origin) origin (pageCount size * pageSize) = some (n * pageSize)

/-- A request maps the pages that it asks for, and otherwise leaves memory alone. -/
theorem memory_allocate (pool : Pool) (m : Memory) (origin : Address) (size : Nat) :
    (∃ n, pool.Maps m origin size n ∧
      (pool.allocate m origin size).2.2 = m.map n (pageCount size) .all) ∨
    (∀ n, ¬ pool.Maps m origin size n) ∧ (pool.allocate m origin size).2.2 = m := by
  have hcourse := allocate_course pool m origin size
  generalize pool.allocate m origin size = result at hcourse
  cases hcourse with
  | reused hreuse => exact .inr ⟨fun n hmaps ↦ (nomatch hreuse.symm.trans hmaps.1), rfl⟩
  | failed _ hplace => exact .inr ⟨fun n hmaps ↦ (nomatch hplace.symm.trans hmaps.2), rfl⟩
  | mapped hreuse hplace => exact .inl ⟨_, ⟨hreuse, hplace⟩, rfl⟩

/-- No request for more than the window is ever served. -/
theorem Maps.le_reach {pool : Pool} (hmaps : pool.Maps m origin size n) : size ≤ 2 * reach := by
  obtain ⟨-, hstart, hstop⟩ := offered_page_of_place? hmaps.2
  have := le_pageCount_mul size
  rw [window_start] at hstart
  rw [window_stop] at hstop
  simp only [Address] at *
  omega

/-- One page is mapped, and it is the second of those that the request gets. -/
theorem maps_over_second (hsize : pageSize < size) (hle : size ≤ 2 * reach) :
    ∃ n, empty.Maps (Memory.empty.map (n + 1) 1 .all) (2 * reach) size n := by
  have hmany : 2 ≤ pageCount size ∧ pageCount size ≤ 1048576 := by
    simp only [pageCount, pageSize, reach] at *
    omega
  have haround : Around (window (2 * reach)) (2 * reach) := around_window (by decide) (by decide)
  have horigin : 2 * reach / pageSize = 1048576 := by decide
  unfold Maps
  generalize pageCount size = count at hmany
  -- upward there is room for half of the window, so a longer request goes below its origin
  obtain ⟨n, hn⟩ : ∃ n, n = min 1048576 (1572864 - count) := ⟨_, rfl⟩
  have hoffered (k : Nat) :
      Offered (Memory.empty.map (n + 1) 1 .all) (window (2 * reach)) (count * pageSize) k ↔
        k ≠ n + 1 ∧ 524288 ≤ k ∧ k + count ≤ 1572864 := by
    have hpage : (Memory.empty.map (n + 1) 1 .all).page k = none ↔ k ≠ n + 1 := by
      by_cases hk : k = n + 1
      · rw [hk, Memory.page_map_self]
        exact iff_of_false (Option.some_ne_none _) fun h ↦ h rfl
      · rw [Memory.page_map_of_ne hk]
        exact iff_of_true rfl hk
    rw [← hpage]
    constructor
    · rintro ⟨hfree, hstart, hstop⟩
      rw [window_start] at hstart
      rw [window_stop] at hstop
      simp only [reach, addressLimit, UInt64.size, pageSize, Address] at hstart hstop
      exact ⟨hfree, by omega, by omega⟩
    · rintro ⟨hfree, hstart, hstop⟩
      refine ⟨hfree, ?_, ?_⟩
      · rw [window_start]
        simp only [reach, pageSize, Address]
        omega
      · rw [window_stop]
        simp only [reach, addressLimit, UInt64.size, pageSize, Address]
        omega
  refine ⟨n, rfl, (place?_eq_some_iff haround ?_).mpr ⟨n, rfl, ?_⟩⟩
  · exact Nat.mul_pos (by omega) (by decide)
  · rw [horigin, Nearest]
    simp only [hoffered]
    refine ⟨⟨by omega, by omega, by omega⟩, ?_⟩
    by_cases hhalf : count ≤ 524288
    · exact .inl ⟨by omega, fun k _ _ ↦ by omega⟩
    · exact .inr ⟨by omega, by omega, fun k _ ↦ by omega⟩

/-- What a request maps starts with a free page. All of it is free for sure only if that page is all
that is mapped, or if so much is asked for that nothing is ever mapped. -/
theorem maps_free_iff (size : Nat) :
    (∀ (pool : Pool) m origin n, pool.Maps m origin size n → m.page n = none) ∧
      ((∀ (pool : Pool) m origin n, pool.Maps m origin size n →
          ∀ k, n ≤ k → k < n + pageCount size → m.page k = none) ↔
        size ≤ pageSize ∨ 2 * reach < size) := by
  refine ⟨fun _ _ _ _ hmaps ↦ (offered_page_of_place? hmaps.2).free, ?_, ?_⟩
  · intro hfree
    refine Decidable.byContradiction fun hcon ↦ ?_
    obtain ⟨hlong, hle⟩ : pageSize < size ∧ size ≤ 2 * reach := by omega
    obtain ⟨n, hmaps⟩ := maps_over_second hlong hle
    have hpage := hfree _ _ _ n hmaps (n + 1) (Nat.le_succ n) (by
      simp only [pageCount, pageSize] at *
      omega)
    rw [Memory.page_map_self] at hpage
    cases hpage
  · rintro (hpage | hlong) pool m origin n hmaps k hn hk
    · rw [pageCount_of_le hpage] at hk
      rw [Nat.le_antisymm (Nat.le_of_lt_succ hk) hn]
      exact (offered_page_of_place? hmaps.2).free
    · exact absurd hmaps.le_reach (Nat.not_le_of_lt hlong)

/-- Between two mapped pages there is a hole of one page. Two pages are mapped from the hole on, and
what was on the page behind it is lost. -/
theorem maps_over_mapped :
    let m := ((Memory.empty.map 0x1000000 1 ⟨true, true, false⟩).map 0x1000002 2
      ⟨true, true, false⟩).store 0x1000002000 [1]
    empty.Maps m 0x1000001000 8192 0x1000001 ∧ m.Mapped 0x1000002000 ∧
      m.byte 0x1000002000 = 1 ∧
      (empty.allocate m 0x1000001000 8192).2.2.byte 0x1000002000 = 0 := by
  intro m
  have haround : Around (window 0x1000001000) 0x1000001000 :=
    around_window (by decide) (by decide)
  have hnearest : Nearest m (window 0x1000001000) (pageCount 8192 * pageSize)
      (0x1000001000 / pageSize) 0x1000001 :=
    ⟨⟨rfl, by decide, by decide⟩, .inl ⟨by decide, fun _ _ hk ↦ hk⟩⟩
  have hmaps : empty.Maps m 0x1000001000 8192 0x1000001 :=
    ⟨rfl, (place?_eq_some_iff haround (by decide)).mpr ⟨0x1000001, rfl, hnearest⟩⟩
  refine ⟨hmaps, by decide, by decide, ?_⟩
  rcases memory_allocate empty m 0x1000001000 8192 with ⟨n, hn, hmap⟩ | ⟨hnot, -⟩
  · have hfirst := Option.some.inj (hn.2.symm.trans hmaps.2)
    rw [hmap, Nat.eq_of_mul_eq_mul_right (by decide) hfirst]
    decide
  · exact absurd hmaps (hnot 0x1000001)

end Pool

end HotPatch.Trampoline
