import HotPatch.Image
import HotPatch.Proofs.Memory.Access
import HotPatch.Proofs.Pattern.Find

/-!
# A scan finds the first match

The readable parts of a span are its maximal runs of readable addresses, whatever regions they are
made of. A match lies in one of them, so that searching them in turn finds the first match.
-/

namespace HotPatch

namespace Memory

variable {m : Memory} {s run : Span} {ts : List Span} {r : Region} {rs : List Region}
  {c n n' stop last : Nat}

/-! ## The readable parts of a span -/

/-- `ts` are the maximal runs of readable addresses from `n` up to `stop`, in order. -/
inductive Parts (m : Memory) (stop : Nat) : Nat → List Span → Prop
  | nil {n : Nat} (gap : ∀ x, n ≤ x → x < stop → ¬ m.Readable x) : Parts m stop n []
  | cons {n : Nat} {t : Span} {ts : List Span}
      (gap : ∀ x, n ≤ x → x < t.start → ¬ m.Readable x) (from_le : n ≤ t.start)
      (nonempty : t.start < t.stop) (stop_le : t.stop ≤ stop)
      (readable : ∀ x, t.start ≤ x → x < t.stop → m.Readable x)
      (behind : t.stop < stop → ¬ m.Readable t.stop) (rest : Parts m stop t.stop ts) :
      Parts m stop n (t :: ts)

theorem Parts.widen (h : m.Parts stop n ts) (hle : n' ≤ n)
    (hgap : ∀ x, n' ≤ x → x < n → x < stop → ¬ m.Readable x) : m.Parts stop n' ts := by
  cases h with
  | nil gap =>
      refine .nil fun x h₁ h₂ ↦ ?_
      rcases Nat.lt_or_ge x n with hx | hx
      · exact hgap x h₁ hx h₂
      · exact gap x hx h₂
  | cons gap from_le nonempty stop_le readable behind rest =>
      refine .cons (fun x h₁ h₂ ↦ ?_) (Nat.le_trans hle from_le) nonempty stop_le readable behind
        rest
      rcases Nat.lt_or_ge x n with hx | hx
      · exact hgap x h₁ hx (Nat.lt_of_lt_of_le (Nat.lt_trans h₂ nonempty) stop_le)
      · exact gap x hx h₂

def Contributes (r : Region) (s : Span) : Prop :=
  r.page.protection.read = true ∧ (r.clip s).start < (r.clip s).stop

theorem readableParts_skip {before : Option Span} (h : ¬ Contributes r s) :
    readableParts s before (r :: rs) = readableParts s before rs := by
  have hskip : (!r.page.protection.read || decide ((r.clip s).stop ≤ (r.clip s).start)) = true := by
    cases hread : r.page.protection.read
    · rfl
    · simpa using Nat.le_of_not_lt fun hlt ↦ h ⟨hread, hlt⟩
  cases before <;> rw [readableParts, if_pos hskip]

theorem readableParts_take (h : Contributes r s) (before : Option Span) :
    readableParts s before (r :: rs) =
      match before with
      | none => readableParts s (some (r.clip s)) rs
      | some run =>
        if run.stop = (r.clip s).start then readableParts s (some ⟨run.start, (r.clip s).stop⟩) rs
        else run :: readableParts s (some (r.clip s)) rs := by
  have htake :
      ¬ (!r.page.protection.read || decide ((r.clip s).stop ≤ (r.clip s).start)) = true := by
    simpa [h.1] using h.2
  cases before <;> rw [readableParts, if_neg htake]

/-- `run` is readable, and nothing between it and `c` is. -/
structure Pending (m : Memory) (s : Span) (c : Nat) (run : Span) : Prop where
  nonempty : run.start < run.stop
  stop_le : run.stop ≤ s.stop
  le_cursor : run.stop ≤ c
  readable : ∀ x, run.start ≤ x → x < run.stop → m.Readable x
  gap : ∀ x, run.stop ≤ x → x < c → x < s.stop → ¬ m.Readable x

theorem Pending.advance (h : m.Pending s c run) (hle : c ≤ n)
    (hgap : ∀ x, c ≤ x → x < n → x < s.stop → ¬ m.Readable x) : m.Pending s n run where
  nonempty := h.nonempty
  stop_le := h.stop_le
  le_cursor := Nat.le_trans h.le_cursor hle
  readable := h.readable
  gap x h₁ h₂ h₃ := (Nat.lt_or_ge x c).elim (fun hx ↦ h.gap x h₁ hx h₃) fun hx ↦ hgap x hx h₂ h₃

theorem Pending.merge {part : Span} (h : m.Pending s c run) (hpart : m.Pending s n part)
    (htouch : run.stop = part.start) : m.Pending s n ⟨run.start, part.stop⟩ where
  nonempty := Nat.lt_trans h.nonempty (htouch ▸ hpart.nonempty)
  stop_le := hpart.stop_le
  le_cursor := hpart.le_cursor
  readable x h₁ h₂ :=
    (Nat.lt_or_ge x run.stop).elim (h.readable x h₁) fun hx ↦ hpart.readable x (htouch ▸ hx) h₂
  gap := hpart.gap

theorem Pending.parts_cons (h : m.Pending s c run) (hrest : m.Parts s.stop c ts)
    (hbehind : run.stop = c → run.stop < s.stop → ¬ m.Readable run.stop) :
    m.Parts s.stop run.start (run :: ts) := by
  refine .cons (fun x h₁ h₂ ↦ absurd h₂ (Nat.not_lt.mpr h₁)) (Nat.le_refl _) h.nonempty h.stop_le
    h.readable (fun hlt ↦ ?_) (hrest.widen h.le_cursor h.gap)
  rcases Nat.eq_or_lt_of_le h.le_cursor with heq | hlt'
  · exact hbehind heq hlt
  · exact h.gap _ (Nat.le_refl _) hlt' hlt

/-- A region that contributes nothing holds no readable address of the span. -/
theorem IsRegion.not_readable_of_skip (hr : m.IsRegion r) (h : ¬ Contributes r s)
    {x : Nat} (hstart : r.start ≤ x) (hstop : x < r.stop) (hs : s.start ≤ x) (hs' : x < s.stop) :
    ¬ m.Readable x := by
  rw [hr.readable_iff hstart hstop]
  intro hread
  exact h ⟨hread, Nat.lt_of_le_of_lt (Nat.max_le.mpr ⟨hstart, hs⟩) (Nat.lt_min.mpr ⟨hstop, hs'⟩)⟩

theorem IsRegion.pending_clip (hr : m.IsRegion r) (h : Contributes r s) :
    m.Pending s r.stop (r.clip s) where
  nonempty := h.2
  stop_le := Nat.min_le_right _ _
  le_cursor := Nat.min_le_left _ _
  readable _ h₁ h₂ := (hr.readable_iff (Nat.le_trans (Nat.le_max_left _ _) h₁)
    (Nat.lt_of_lt_of_le h₂ (Nat.min_le_left _ _))).mpr h.1
  gap _ h₁ h₂ h₃ := absurd h₁ (Nat.not_le.mpr (Nat.lt_min.mpr ⟨h₂, h₃⟩))

/-- The loop over the regions finds the parts, `c` being how far it has come. -/
theorem parts_readableParts (ht : m.Tiles last n rs) (hlast : s.stop ≤ pageSize * last)
    (hc : c / pageSize = n) (hs : s.start ≤ c) (hnext : ∀ r ∈ rs, c = s.start ∨ c ≤ r.start) :
    m.Parts s.stop c (readableParts s none rs) ∧
      ∀ run, m.Pending s c run → m.Parts s.stop run.start (readableParts s (some run) rs) := by
  induction ht generalizing c with
  | @nil n gap =>
      have hgap : ∀ x, c ≤ x → x < s.stop → ¬ m.Readable x := fun x h₁ h₂ ↦
        mt mapped_of_readable (not_mapped_of_gap gap hc h₁ (Nat.lt_of_lt_of_le h₂ hlast))
      exact ⟨.nil hgap, fun run hrun ↦ hrun.parts_cons (.nil hgap) fun heq hlt ↦
        hgap _ (Nat.le_of_eq heq.symm) hlt⟩
  | @cons n r rs gap region meets ordered rest ih =>
      have hgap : ∀ x, c ≤ x → x < r.start → ¬ m.Readable x := fun x h₁ h₂ ↦
        mt mapped_of_readable (not_mapped_of_gap gap hc h₁ h₂)
      have hinside : c < r.stop := lt_pageSize_mul_iff.mpr (hc ▸ meets)
      have hle := Nat.le_of_lt hinside
      obtain ⟨hnone, hsome⟩ : m.Parts s.stop r.stop (readableParts s none rs) ∧ ∀ run,
          m.Pending s r.stop run → m.Parts s.stop run.start (readableParts s (some run) rs) := by
        apply ih (Nat.mul_div_cancel_left r.last (by decide)) (Nat.le_trans hs hle)
        exact fun s hs ↦ .inr (Nat.mul_le_mul_left pageSize (ordered s hs))
      by_cases hpart : Contributes r s
      case neg =>
        have hunreadable : ∀ x, c ≤ x → x < r.stop → x < s.stop → ¬ m.Readable x := by
          intro x h₁ h₂ h₃
          rcases Nat.lt_or_ge x r.start with hx | hx
          · exact hgap x h₁ hx
          · exact region.not_readable_of_skip hpart hx h₂ (Nat.le_trans hs h₁) h₃
        simp only [readableParts_skip hpart]
        exact ⟨hnone.widen hle hunreadable, fun run hrun ↦ hsome run (hrun.advance hle hunreadable)⟩
      have hpending := region.pending_clip hpart
      have hcursor : c ≤ (r.clip s).start := by
        rcases hnext r List.mem_cons_self with heq | hle
        · exact heq ▸ Nat.le_max_right _ _
        · exact Nat.le_trans hle (Nat.le_max_left _ _)
      have hbefore : ∀ x, c ≤ x → x < (r.clip s).start → ¬ m.Readable x := by
        intro x h₁ h₂
        rcases Nat.lt_or_ge x r.start with hx | hx
        · exact hgap x h₁ hx
        · exact absurd h₂ (Nat.not_lt.mpr (Nat.max_le.mpr ⟨hx, Nat.le_trans hs h₁⟩))
      have hparts := (hsome _ hpending).widen hcursor fun x h₁ h₂ _ ↦ hbefore x h₁ h₂
      simp only [readableParts_take hpart]
      refine ⟨hparts, fun run hrun ↦ ?_⟩
      split
      · rename_i htouch
        exact hsome _ (hrun.merge hpending htouch)
      · rename_i hapart
        apply hrun.parts_cons hparts
        intro heq _
        exact hbefore _ (Nat.le_of_eq heq.symm) (Nat.lt_of_le_of_ne (heq ▸ hcursor) hapart)

/-- The parts of a span that are found are its maximal runs of readable addresses. -/
theorem parts_of_span (m : Memory) (s : Span) :
    m.Parts s.stop s.start (readableParts s none (m.regions s)) :=
  (parts_readableParts (m.tiles_regions s) (le_pageSize_mul_last _) rfl (Nat.le_refl _)
    fun _ _ ↦ .inl rfl).1

end Memory

/-! ## Searching the parts in turn -/

variable {p : Pattern} {m : Memory} {t : Span} {ts : List Span} {a n stop : Nat}

structure Pattern.MatchesIn (p : Pattern) (m : Memory) (n stop a : Nat) : Prop where
  start_le : n ≤ a
  le_stop : a + p.length ≤ stop
  readable : ∀ x, a ≤ x → x < a + p.length → m.Readable x
  suits : p.Suits m a

theorem Pattern.MatchesIn.readable_start (h : p.MatchesIn m n stop a) : m.Readable a :=
  h.readable a (Nat.le_refl a) (Nat.lt_add_of_pos_right p.length_pos)

/-- A match lies in the first part or behind it, since what separates them may not be read. -/
theorem matchesIn_cons_iff (gap : ∀ x, n ≤ x → x < t.start → ¬ m.Readable x) (from_le : n ≤ t.start)
    (nonempty : t.start < t.stop) (stop_le : t.stop ≤ stop)
    (behind : t.stop < stop → ¬ m.Readable t.stop) :
    p.MatchesIn m t.start t.stop a ∨ p.MatchesIn m t.stop stop a ↔ p.MatchesIn m n stop a := by
  constructor
  · rintro (h | h)
    · exact ⟨Nat.le_trans from_le h.start_le, Nat.le_trans h.le_stop stop_le, h.readable, h.suits⟩
    · exact ⟨Nat.le_trans from_le (Nat.le_trans (Nat.le_of_lt nonempty) h.start_le), h.le_stop,
        h.readable, h.suits⟩
  · intro h
    have hstart : t.start ≤ a := Nat.le_of_not_lt fun hlt ↦ gap a h.start_le hlt h.readable_start
    rcases Nat.lt_or_ge a t.stop with hlt | hge
    · refine .inl ⟨hstart, Nat.le_of_not_lt fun hover ↦ ?_, h.readable, h.suits⟩
      exact behind (Nat.lt_of_lt_of_le hover h.le_stop) (h.readable _ (Nat.le_of_lt hlt) hover)
    · exact .inr ⟨hge, h.le_stop, h.readable, h.suits⟩

/-- The first match in the readable parts, taken in order, is the first of all. -/
theorem scanParts_isFirst (h : m.Parts stop n ts) :
    IsFirst (p.MatchesIn m n stop) (ts.findSome? fun t ↦
      (p.find (m.bytes t.start (t.stop - t.start))).map (t.start + ·)) := by
  induction h with
  | nil gap =>
      intro a ha
      have hlt : a < a + p.length := Nat.lt_add_of_pos_right p.length_pos
      exact gap a ha.start_le (Nat.lt_of_lt_of_le hlt ha.le_stop) ha.readable_start
  | @cons n t ts gap from_le nonempty stop_le readable behind rest ih =>
      have hpart : IsFirst (p.MatchesIn m t.start t.stop)
          ((p.find (m.bytes t.start (t.stop - t.start))).map (t.start + ·)) := by
        apply (p.find_bytes m t.start (t.stop - t.start)).congr
        intro a
        rw [Nat.add_sub_cancel' (Nat.le_of_lt nonempty)]
        constructor
        · rintro ⟨hstart, hstop, hsuits⟩
          exact ⟨hstart, hstop, fun x h₁ h₂ ↦
            readable x (Nat.le_trans hstart h₁) (Nat.lt_of_lt_of_le h₂ hstop), hsuits⟩
        · intro h
          exact ⟨h.start_le, h.le_stop, h.suits⟩
      have hbefore : ∀ a b, p.MatchesIn m t.start t.stop a → p.MatchesIn m t.stop stop b → a < b :=
        fun a b ha hb ↦ Nat.lt_of_lt_of_le (Nat.lt_of_lt_of_le
          (Nat.lt_add_of_pos_right p.length_pos) ha.le_stop) hb.start_le
      rw [List.findSome?_cons]
      have hor := (hpart.or ih hbefore).congr fun a ↦
        matchesIn_cons_iff gap from_le nonempty stop_le behind
      cases hfind : (p.find (m.bytes t.start (t.stop - t.start))).map (t.start + ·) with
      | none => simpa [hfind] using hor
      | some b => simpa [hfind] using hor

namespace Image

variable {im : Image} {start : Nat}

/-- A match of `p` at `a` inside the image, and between two offsets in it. -/
structure Matches (im : Image) (m : Memory) (p : Pattern) (start stop a : Nat) : Prop where
  start_le : im.base + start ≤ a
  le_stop : a + p.length ≤ im.base + stop
  le_end : a + p.length ≤ im.stop
  readable : ∀ x, a ≤ x → x < a + p.length → m.Readable x
  suits : p.Suits m a

/-- An offset behind the end of the image bounds nothing that the end does not. -/
theorem bounds_iff (base size start stop a : Nat) {len : Nat} (hlen : 0 < len) :
    base + min start size ≤ a ∧ a + len ≤ base + min stop size ↔
      base + start ≤ a ∧ a + len ≤ base + stop ∧ a + len ≤ base + size := by
  omega

theorem matchesIn_span_iff :
    p.MatchesIn m (im.span start stop).start (im.span start stop).stop a ↔
      im.Matches m p start stop a := by
  have hbounds := bounds_iff im.base im.size start stop a p.length_pos
  constructor
  · intro h
    obtain ⟨hstart, hstop, hend⟩ := hbounds.mp ⟨h.start_le, h.le_stop⟩
    exact ⟨hstart, hstop, hend, h.readable, h.suits⟩
  · intro h
    obtain ⟨hstart, hstop⟩ := hbounds.mpr ⟨h.start_le, h.le_stop, h.le_end⟩
    exact ⟨hstart, hstop, h.readable, h.suits⟩

/-- A scan finds the first match. -/
theorem scanWithin_isFirst (im : Image) (m : Memory) (p : Pattern) (start stop : Nat) :
    IsFirst (im.Matches m p start stop) (im.scanWithin m p start stop) := by
  apply IsFirst.congr _ fun a ↦ matchesIn_span_iff
  unfold scanWithin readableRanges
  by_cases hspan : (im.span start stop).start < (im.span start stop).stop
  · simp only [if_pos hspan]
    exact scanParts_isFirst (m.parts_of_span _)
  · simp only [if_neg hspan]
    intro a h
    have hlen := Nat.lt_of_lt_of_le (Nat.lt_add_of_pos_right p.length_pos) h.le_stop
    exact hspan (Nat.lt_of_le_of_lt h.start_le hlen)

-- a match over the border of two regions, and none where the second may not be read
example :
    let readOnly : Protection := ⟨true, false, false⟩
    let im : Image := ⟨0, 2 * pageSize⟩
    let p : Pattern := ⟨[.exact 0, .wildcard, .exact 0], by simp⟩
    let m := (Memory.empty.map 0 1 .all).map 1 1 readOnly
    im.scanWithin m p 4094 4097 = some 4094 ∧
      im.scanWithin (m.map 1 1 .none) p 4094 4097 = none := by
  decide +kernel

end Image

end HotPatch
