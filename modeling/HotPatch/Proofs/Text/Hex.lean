import HotPatch.Text.Hex
import HotPatch.Proofs.Text.Words

/-!
# Hexadecimal digits

A digit has the value that its place in the row of digits says, and a number below sixteen is
written as the digit whose value it is.
-/

namespace HotPatch.Text

variable {c : Char} {n : Nat}

def smallDigits : List Char :=
  ['0', '1', '2', '3', '4', '5', '6', '7', '8', '9', 'a', 'b', 'c', 'd', 'e', 'f']

def capitalDigits : List Char :=
  ['0', '1', '2', '3', '4', '5', '6', '7', '8', '9', 'A', 'B', 'C', 'D', 'E', 'F']

def IsHexDigit (c : Char) (n : Nat) : Prop :=
  smallDigits[n]? = some c ∨ capitalDigits[n]? = some c

instance (c : Char) (n : Nat) : Decidable (IsHexDigit c n) :=
  inferInstanceAs (Decidable (_ ∨ _))

theorem hexValue?_digit : ∀ digits ∈ [smallDigits, capitalDigits], ∀ i : Fin digits.length,
    hexValue? (digits.get i) = some i.val := by
  decide

theorem bounds_of_hexValue? (h : hexValue? c = some n) : c.toNat < 103 ∧ n < 16 := by
  simp only [hexValue?] at h
  split at h
  · cases h
    omega
  · split at h
    · cases h
      omega
    · split at h
      · cases h
        omega
      · cases h

/-- A character has a value exactly if it is the digit for it. -/
theorem hexValue?_eq_some_iff : hexValue? c = some n ↔ IsHexDigit c n := by
  constructor
  · intro h
    have hall : ∀ k < 103, ∀ n < 16, hexValue? (Char.ofNat k) = some n →
        IsHexDigit (Char.ofNat k) n := by decide +kernel
    obtain ⟨hc, hn⟩ := bounds_of_hexValue? h
    rw [← Char.ofNat_toNat c] at h ⊢
    exact hall c.toNat hc n hn h
  · rintro (h | h)
    all_goals
      obtain ⟨hn, rfl⟩ := List.getElem?_eq_some_iff.mp h
      exact hexValue?_digit _ (by simp) ⟨n, hn⟩

theorem IsHexDigit.ne {x : Char} (h : IsHexDigit c n) (hx : hexValue? x = none) : c ≠ x := by
  rintro rfl
  rw [hexValue?_eq_some_iff.mpr h] at hx
  cases hx

theorem isHexDigit_hexDigit (capital : Bool) (hn : n < 16) : IsHexDigit (hexDigit capital n) n := by
  have hall : ∀ capital : Bool, ∀ n < 16, IsHexDigit (hexDigit capital n) n := by decide +kernel
  exact hall capital n hn

theorem isWord_hexByte (capital : Bool) (b : UInt8) : IsWord (hexByte capital b) := by
  have hall : ∀ capital : Bool, ∀ n < 16, isBlank (hexDigit capital n) = false := by decide +kernel
  refine ⟨by simp [hexByte], ?_⟩
  simp only [hexByte, List.mem_cons, List.not_mem_nil, or_false]
  rintro c (rfl | rfl)
  · exact hall capital _ (by have := b.toNat_lt; omega)
  · exact hall capital _ (Nat.mod_lt _ (by decide))

end HotPatch.Text
