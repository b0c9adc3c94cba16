import HotPatch.Memory.Write
import HotPatch.Proofs.Memory.Access
import HotPatch.Proofs.Memory.Bytes

/-!
# Checked writes are atomic

A checked write succeeds exactly when its range may be read, holds the expected bytes and lies in
pages that can be made writable. It then puts the new bytes there, and changes nothing otherwise.
-/

namespace HotPatch.Memory

variable {m m' : Memory} {bs : List UInt8} {a len n count : Nat}

/-- Whether page `n` can be written to, if need be after its protection is lifted. -/
def pageWritable (m : Memory) (n : Nat) : Bool :=
  match m.page n with
  | some p => p.protection.write || !p.isSealed
  | none => false

structure Admits (m : Memory) (a len : Nat) : Prop where
  bounded : len ≠ 0 → a + len < addressLimit
  readable : ∀ x, a ≤ x → x < a + len → m.Readable x
  writable : ∀ x, a ≤ x → x < a + len → m.pageWritable (x / pageSize) = true

theorem Admits.accessible (h : m.Admits a len) : m.Accessible a len := ⟨h.bounded, h.readable⟩

theorem Admits.checkAccess (h : m.Admits a len) : m.checkAccess a len = .ok () :=
  (checkAccess_eq_ok_iff m a len).mpr h.accessible

theorem Admits.of_page_eq (h : m.Admits a len)
    (hpage : ∀ x, a ≤ x → x < a + len → m'.page (x / pageSize) = m.page (x / pageSize)) :
    m'.Admits a len where
  bounded := h.bounded
  readable x ha hx := by
    have := h.readable x ha hx
    simpa only [Readable, pageReadable, hpage x ha hx] using this
  writable x ha hx := by
    have := h.writable x ha hx
    simpa only [pageWritable, hpage x ha hx] using this

theorem admits_store {b : Nat} : (m.store b bs).Admits a len ↔ m.Admits a len :=
  ⟨fun h ↦ h.of_page_eq fun _ _ _ ↦ rfl, fun h ↦ h.of_page_eq fun _ _ _ ↦ rfl⟩

theorem Admits.mono (h : m.Admits a len) (hle : n ≤ len) : m.Admits a n where
  bounded hn := by
    have := h.bounded (by omega)
    omega
  readable x ha hx := h.readable x ha (by omega)
  writable x ha hx := h.writable x ha (by omega)

/-! ## Lifting the protection of a region -/

/-- Memories that differ in the pages from `n` up to `last` only, all of which `page` stands for in
the second. -/
structure Repaged (m m' : Memory) (n last : Nat) (page : Page) : Prop where
  page_eq : ∀ k, m'.page k = if n ≤ k ∧ k < last then some page else m.page k
  byte_eq : m'.byte = m.byte
  low_eq : m'.low = m.low
  high_eq : m'.high = m.high

theorem protect_eq {p : Page} {q : Protection} (hp : m.page n = some p)
    (h : p.isSealed = false ∨ q.write = false) :
    m.protect n q = some (m.setPage n (some { p with protection := q })) := by
  rcases h with h | h <;> simp [protect, hp, h]

/-- Pages that are all alike can be protected anew, unless they are sealed and are to become
writable. -/
theorem protectPages_eq {p : Page} {q : Protection}
    (hp : ∀ k, n ≤ k → k < n + count → m.page k = some p)
    (h : p.isSealed = false ∨ q.write = false) :
    ∃ m', m.protectPages q n count = some m' ∧
      Repaged m m' n (n + count) { p with protection := q } := by
  induction count generalizing m n with
  | zero => exact ⟨m, rfl, fun k ↦ by rw [if_neg (by omega)], rfl, rfl, rfl⟩
  | succ count ih =>
      have hn := hp n (Nat.le_refl n) (by omega)
      have hbounds := bounds_setPage hn (some { p with protection := q })
      have hrest : ∀ k, n + 1 ≤ k → k < n + 1 + count →
          (m.setPage n (some { p with protection := q })).page k = some p := by
        intro k h₁ h₂
        rw [page_setPage, if_neg (by omega), hp k (by omega) (by omega)]
      obtain ⟨m', hprotect, hpages⟩ := ih hrest
      refine ⟨m', by rw [protectPages, protect_eq hn h]; exact hprotect, fun k ↦ ?_,
        hpages.byte_eq, hpages.low_eq.trans hbounds.1, hpages.high_eq.trans hbounds.2⟩
      rw [hpages.page_eq, page_setPage]
      by_cases hk : k = n
      · rw [if_neg (by omega), if_pos hk, if_pos (by omega)]
      · rw [if_neg hk]
        simp only [show n + 1 ≤ k ∧ k < n + 1 + count ↔ n ≤ k ∧ k < n + (count + 1) by omega]

theorem protectPages_sealed {p : Page} {q : Protection} (hp : m.page n = some p)
    (hs : p.isSealed = true) (hq : q.write = true) (hcount : count ≠ 0) :
    m.protectPages q n count = none := by
  obtain ⟨count, rfl⟩ := Nat.exists_eq_succ_of_ne_zero hcount
  simp [protectPages, protect, hp, hs, hq]

/-- Pages that are replaced around a store and put back are as they were. -/
theorem Repaged.store_back {m₁ m₂ : Memory} {p q : Page} {last : Nat}
    (hp : ∀ k, n ≤ k → k < last → m.page k = some p) (h₁ : Repaged m m₁ n last q)
    (h₂ : Repaged (m₁.store a bs) m₂ n last p) : m₂ = m.store a bs := by
  refine ext_page_byte (funext fun k ↦ ?_) ?_ (h₂.low_eq.trans h₁.low_eq)
    (h₂.high_eq.trans h₁.high_eq)
  · rw [h₂.page_eq, page_store, page_store, h₁.page_eq]
    by_cases hk : n ≤ k ∧ k < last
    · rw [if_pos hk, hp k hk.1 hk.2]
    · rw [if_neg hk, if_neg hk]
  · rw [h₂.byte_eq]
    funext x
    rw [byte_store, byte_store, h₁.byte_eq]

/-- Lifting the protection of a span of equal pages for a store leaves the pages as they were. -/
theorem protectSpan_store_protectSpan {start stop : Nat} {p : Page} (hlt : start < stop)
    (hp : ∀ x, start ≤ x → x < stop → m.page (x / pageSize) = some p)
    (hw : p.protection.write = false) (hs : p.isSealed = false) (a : Nat) (bs : List UInt8) :
    ∃ m₁, m.protectSpan ⟨start, stop⟩ { p.protection with write := true } = some m₁ ∧
      (m₁.store a bs).protectSpan ⟨start, stop⟩ p.protection = some (m.store a bs) := by
  have hpages : ∀ k, start / pageSize ≤ k →
      k < start / pageSize + ((stop - 1) / pageSize + 1 - start / pageSize) →
        m.page k = some p := by
    simp only [pageSize] at *
    intro k h₁ h₂
    -- the first address of the span on page `k`
    have hx := hp (max start (k * 4096)) (by omega) (by omega)
    rwa [show max start (k * 4096) / 4096 = k by omega] at hx
  obtain ⟨m₁, hlift, h₁⟩ := protectPages_eq hpages (q := { p.protection with write := true })
    (.inl hs)
  obtain ⟨m₂, hback, h₂⟩ := protectPages_eq (m := m₁.store a bs) (q := p.protection)
    (fun k hk hlt ↦ (h₁.page_eq k).trans (if_pos ⟨hk, hlt⟩)) (.inr hw)
  exact ⟨m₁, hlift, by rw [protectSpan, hback, h₁.store_back hpages h₂]⟩

/-! ## Copying region by region -/

variable {r : Region} {rs : List Region} {c last : Nat}

theorem IsRegion.pageWritable_iff (h : m.IsRegion r) {x : Nat} (hstart : r.start ≤ x)
    (hstop : x < r.stop) :
    m.pageWritable (x / pageSize) = true ↔
      r.page.protection.write = true ∨ r.page.isSealed = false := by
  simp [pageWritable, h.page_of_mem hstart hstop]

/-- A region that can be written to takes its part of the bytes, and no other does. -/
theorem writeRegions_cons {stop : Nat} (rs : List Region) (hr : m.IsRegion r)
    (hstart : r.start ≤ a + c) (hnext : c = 0 ∨ a + c ≤ r.start)
    (hmin : min r.stop (a + bs.length) = stop) (hlt : a + c < stop) (hc : c < bs.length) :
    writeRegions a bs c (r :: rs) (m.store a (bs.take c)) =
      if m.pageWritable ((a + c) / pageSize) then
        writeRegions a bs (stop - a) rs (m.store a (bs.take (stop - a)))
      else (.error c, m.store a (bs.take c)) := by
  have hmax : max r.start a = a + c := by
    rcases hnext with rfl | hge
    · exact Nat.max_eq_right hstart
    · exact (Nat.max_eq_left (Nat.le_trans (Nat.le_add_right a c) hge)).trans
        (Nat.le_antisymm hstart hge)
  have hclip : r.clip ⟨a, a + bs.length⟩ = ⟨a + c, stop⟩ := by
    simp only [Region.clip, hmax, hmin]
  have hinside : stop ≤ r.stop := hmin ▸ Nat.min_le_left _ _
  have hstore : (m.store a (bs.take c)).store (a + c) ((bs.drop c).take (stop - (a + c))) =
      m.store a (bs.take (stop - a)) := by
    rw [store_take_drop m a _ (Nat.le_of_lt hc), show c + (stop - (a + c)) = stop - a by omega]
  have hpage : ∀ x, a + c ≤ x → x < stop →
      (m.store a (bs.take c)).page (x / pageSize) = some r.page := fun x h₁ h₂ ↦
    hr.page_of_mem (Nat.le_trans hstart h₁) (Nat.lt_of_lt_of_le h₂ hinside)
  have hhere := hpage (a + c) (Nat.le_refl _) hlt
  rw [writeRegions, hclip]
  simp only [Nat.not_le.mpr hlt, if_false, Nat.add_sub_cancel_left,
    hr.pageWritable_iff hstart (Nat.lt_of_lt_of_le hlt hinside)]
  cases hw : r.page.protection.write with
  | true => simp [hstore]
  | false =>
      cases hs : r.page.isSealed with
      | true =>
          have hle : (a + c) / pageSize ≤ (stop - 1) / pageSize := Nat.div_le_div_right (by omega)
          have hrefused : (m.store a (bs.take c)).protectSpan ⟨a + c, stop⟩
              { r.page.protection with write := true } = none :=
            protectPages_sealed hhere hs rfl (by dsimp only; omega)
          simp [hrefused]
      | false =>
          obtain ⟨m₁, hlift, hback⟩ := protectSpan_store_protectSpan hlt hpage hw hs (a + c)
            ((bs.drop c).take (stop - (a + c)))
          simp [hlift, hback, hstore]

/-- Regions behind the range take nothing. -/
theorem writeRegions_of_behind (h : ∀ r ∈ rs, a + bs.length ≤ r.start) :
    writeRegions a bs c rs m = (.ok (), m) := by
  induction rs with
  | nil => rfl
  | cons r rs ih =>
      have hr := h r List.mem_cons_self
      have hempty : (r.clip ⟨a, a + bs.length⟩).stop ≤ (r.clip ⟨a, a + bs.length⟩).start :=
        Nat.le_trans (Nat.min_le_right _ _) (Nat.le_trans hr (Nat.le_max_left _ _))
      rw [writeRegions, if_pos hempty]
      exact ih fun s hs ↦ h s (List.mem_cons_of_mem r hs)

/-- Copying to the regions of a mapped range either reaches its end or stops at the first address
that cannot be written to. -/
theorem writeRegions_cases (ht : m.Tiles last n rs) (hend : a + bs.length ≤ pageSize * last)
    (hmapped : ∀ x, a ≤ x → x < a + bs.length → m.Mapped x) (hn : (a + c) / pageSize = n)
    (hc : c < bs.length) (hnext : ∀ r ∈ rs, c = 0 ∨ a + c ≤ r.start) :
    ((∀ x, a + c ≤ x → x < a + bs.length → m.pageWritable (x / pageSize) = true) ∧
        writeRegions a bs c rs (m.store a (bs.take c)) = (.ok (), m.store a bs)) ∨
      ∃ d, c ≤ d ∧ d < bs.length ∧ m.pageWritable ((a + d) / pageSize) = false ∧
        (∀ x, a + c ≤ x → x < a + d → m.pageWritable (x / pageSize) = true) ∧
        writeRegions a bs c rs (m.store a (bs.take c)) = (.error d, m.store a (bs.take d)) := by
  have hhere : m.Mapped (a + c) := hmapped _ (by omega) (by omega)
  induction ht generalizing c with
  | @nil n gap =>
      exact absurd hhere (not_mapped_of_gap gap hn (Nat.le_refl _) (by omega))
  | @cons n r rs gap region meets ordered rest ih =>
      have hstart : r.start ≤ a + c := by
        rcases Nat.lt_or_ge (a + c) r.start with hlt | hge
        · exact absurd hhere (not_mapped_of_gap gap hn (Nat.le_refl _) hlt)
        · exact hge
      have hstop : a + c < r.stop := lt_pageSize_mul_iff.mpr (hn ▸ meets)
      have hbehind : ∀ s ∈ rs, r.stop ≤ s.start := fun s hs ↦
        Nat.mul_le_mul_left pageSize (ordered s hs)
      have hstep {stop : Nat} (hmin : min r.stop (a + bs.length) = stop) (hlt : a + c < stop) :=
        writeRegions_cons rs region hstart (hnext r List.mem_cons_self) hmin hlt hc
      cases hw : m.pageWritable ((a + c) / pageSize) with
      | false =>
        refine .inr ⟨c, Nat.le_refl c, hc, hw, fun x h₁ h₂ ↦ by omega, ?_⟩
        rw [hstep rfl (Nat.lt_min.mpr ⟨hstop, by omega⟩), hw]
        rfl
      | true =>
      have hwritable : ∀ x, a + c ≤ x → x < r.stop → m.pageWritable (x / pageSize) = true :=
        fun x h₁ h₂ ↦ (region.pageWritable_iff (Nat.le_trans hstart h₁) h₂).mpr
          ((region.pageWritable_iff hstart hstop).mp hw)
      rcases Nat.lt_or_ge r.stop (a + bs.length) with hmore | hdone
      · -- the next region goes on where this one ends
        have hreached : a + (r.stop - a) = r.stop := by omega
        rw [hstep (Nat.min_eq_left (Nat.le_of_lt hmore)) hstop, if_pos hw]
        rcases ih (c := r.stop - a) (by rw [hreached]; exact Nat.mul_div_cancel_left _ (by decide))
            (by omega) (fun s hs ↦ .inr (by rw [hreached]; exact hbehind s hs))
            (by rw [hreached]; exact hmapped _ (by omega) hmore) with
          ⟨hall, heq⟩ | ⟨d, hd, hdlt, hdw, hbefore, heq⟩
        · rw [hreached] at hall
          exact .inl ⟨fun x h₁ h₂ ↦
            (Nat.lt_or_ge x r.stop).elim (hwritable x h₁) fun hx ↦ hall x hx h₂, heq⟩
        · rw [hreached] at hbefore
          exact .inr ⟨d, by omega, hdlt, hdw, fun x h₁ h₂ ↦
            (Nat.lt_or_ge x r.stop).elim (hwritable x h₁) fun hx ↦ hbefore x hx h₂, heq⟩
      · rw [hstep (Nat.min_eq_right hdone) (by omega), if_pos hw, Nat.add_sub_cancel_left,
          List.take_length, writeRegions_of_behind fun s hs ↦ Nat.le_trans hdone (hbehind s hs)]
        exact .inl ⟨fun x h₁ h₂ ↦ hwritable x h₁ (Nat.lt_of_lt_of_le h₂ hdone), rfl⟩

/-- Copying to a mapped range puts all bytes in place, or a front of them of which each address can
be written to. -/
theorem writeProtected_cases (hmapped : ∀ x, a ≤ x → x < a + bs.length → m.Mapped x) :
    ((∀ x, a ≤ x → x < a + bs.length → m.pageWritable (x / pageSize) = true) ∧
        m.writeProtected a bs = (.ok (), m.store a bs)) ∨
      (¬ (∀ x, a ≤ x → x < a + bs.length → m.pageWritable (x / pageSize) = true) ∧
        ∃ c, c < bs.length ∧
          (∀ x, a ≤ x → x < a + c → m.pageWritable (x / pageSize) = true) ∧
          m.writeProtected a bs = (.error c, m.store a (bs.take c))) := by
  by_cases hbs : bs = []
  · subst hbs
    exact .inl ⟨fun x h₁ h₂ ↦ absurd h₂ (Nat.not_lt.mpr h₁), by simp [writeProtected]⟩
  have hpos : 0 < bs.length := List.length_pos_iff.mpr hbs
  have hnonempty : bs.isEmpty = false := List.isEmpty_eq_false_iff.mpr hbs
  have hcases := writeRegions_cases (c := 0) (m.tiles_regions ⟨a, a + bs.length⟩)
    (le_pageSize_mul_last _) hmapped rfl hpos fun _ _ ↦ .inl rfl
  rw [List.take_zero, store_nil] at hcases
  simp only [writeProtected, hnonempty, Bool.false_eq_true, if_false]
  rcases hcases with ⟨hall, heq⟩ | ⟨d, -, hd, hdw, hbefore, heq⟩
  · exact .inl ⟨hall, heq⟩
  · refine .inr ⟨fun hall ↦ ?_, d, hd, hbefore, heq⟩
    simp [hall (a + d) (by omega) (by omega)] at hdw

/-! ## The checked write -/

/-- A range that cannot be read is refused for its regions. -/
theorem checkAccess_error {e : MemoryError} (h : m.checkAccess a len = .error e) :
    (∃ b l, e = .uncommitted b l) ∨ ∃ b p, e = .protection b p := by
  rcases (checkAccess_eq_error_iff m a len e).mp h with ⟨-, -, rfl⟩ | ⟨-, b, -, hdecides⟩
  · exact .inl ⟨_, _, rfl⟩
  · cases hdecides with
    | uncommitted => exact .inl ⟨_, _, rfl⟩
    | protection => exact .inr ⟨_, _, rfl⟩

variable {expected new : List UInt8}

/-- A checked write to a range that admits it and holds the expected bytes is made. -/
theorem writeExact_eq_ok (h : m.Admits a new.length) (hb : m.bytes a new.length = expected) :
    m.writeExact a expected new = (.ok (), m.store a new) := by
  rcases writeProtected_cases fun x h₁ h₂ ↦ mapped_of_readable (h.readable x h₁ h₂) with
    ⟨-, heq⟩ | ⟨hnot, -⟩
  · simp [writeExact, h.checkAccess, hb, heq]
  · exact absurd h.writable hnot

/-- Any other checked write is refused and changes nothing: what was copied can be put back. -/
theorem writeExact_eq_error
    (h : ¬ (m.Admits a new.length ∧ m.bytes a new.length = expected)) :
    ∃ e, m.writeExact a expected new = (.error e, m) ∧
      (∀ b, e ≠ .torn b) ∧ ∀ b, e ≠ .verification b := by
  cases haccess : m.checkAccess a new.length with
  | error e =>
      refine ⟨e, by simp [writeExact, haccess], ?_⟩
      rcases checkAccess_error haccess with ⟨b, l, rfl⟩ | ⟨b, p, rfl⟩ <;> simp
  | ok u =>
      have hreadable := (checkAccess_eq_ok_iff m a new.length).mp haccess
      have hmapped : ∀ x, a ≤ x → x < a + new.length → m.Mapped x := fun x h₁ h₂ ↦
        mapped_of_readable (hreadable.2 x h₁ h₂)
      by_cases hb : m.bytes a new.length = expected
      · rcases writeProtected_cases hmapped with ⟨hw, -⟩ | ⟨-, c, hc, hfront, heq⟩
        · exact absurd ⟨⟨hreadable.1, hreadable.2, hw⟩, hb⟩ h
        · refine ⟨.permissionDenied, ?_, by simp, by simp⟩
          have hlen : (expected.take c).length = c := by
            rw [← hb, take_bytes m a (Nat.le_of_lt hc), length_bytes]
          -- the front that was copied lies in pages that can be written to
          have hback : (m.store a (new.take c)).writeProtected a (expected.take c) =
              (.ok (), m) := by
            rcases writeProtected_cases (m := m.store a (new.take c))
              (fun x h₁ (h₂ : x < a + (expected.take c).length) ↦ hmapped x h₁ (by omega)) with
              ⟨-, hrest⟩ | ⟨hnot, -⟩
            · rw [hrest, store_store_of_bytes (n := c)]
              · rw [← hb, take_bytes m a (Nat.le_of_lt hc)]
              · rw [List.length_take, Nat.min_eq_left (Nat.le_of_lt hc)]
            · rw [hlen] at hnot
              exact absurd hfront hnot
          by_cases hzero : c = 0
          · subst hzero
            simp [writeExact, haccess, hb, heq]
          · simp [writeExact, haccess, hb, heq, hzero, hback]
      · exact ⟨.mismatch a new.length, by simp [writeExact, haccess, hb], by simp, by simp⟩

end HotPatch.Memory
