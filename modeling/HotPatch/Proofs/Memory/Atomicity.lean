import HotPatch.Proofs.Memory.Write

/-!
# All of a checked write or nothing of it

Whatever regions a range meets, and in whichever of them the copying gets stuck, a checked write
puts all its bytes in place or leaves memory as it was.
-/

namespace HotPatch.Memory

variable {m : Memory} {a : Nat} {expected new : List UInt8} {o : Except MemoryError Unit × Memory}

/-- `o` is what becomes of writing `new` over `expected` at `a`: the write is made exactly when the
range may be read and written to and holds the expected bytes; the bytes of the range are the new
ones then, and nothing else changes ever. -/
structure AllOrNothing (m : Memory) (a : Nat) (expected new : List UInt8)
    (o : Except MemoryError Unit × Memory) : Prop where
  ok_iff : o.1 = .ok () ↔ m.Admits a new.length ∧ m.bytes a new.length = expected
  bytes_eq : o.1 = .ok () → o.2.bytes a new.length = new
  byte_eq : ∀ x, ¬ (o.1 = .ok () ∧ a ≤ x ∧ x < a + new.length) → o.2.byte x = m.byte x
  page_eq : o.2.page = m.page
  not_torn : ∀ b, o.1 ≠ .error (.torn b)
  not_verification : ∀ b, o.1 ≠ .error (.verification b)

theorem allOrNothing_of_ok (h : m.Admits a new.length ∧ m.bytes a new.length = expected) :
    m.AllOrNothing a expected new (.ok (), m.store a new) where
  ok_iff := iff_of_true rfl h
  bytes_eq _ := bytes_store m a new
  byte_eq _ hx := byte_store_of_not_mem fun hmem ↦ hx ⟨rfl, hmem⟩
  page_eq := rfl
  not_torn _ := nofun
  not_verification _ := nofun

theorem allOrNothing_of_error {e : MemoryError}
    (h : ¬ (m.Admits a new.length ∧ m.bytes a new.length = expected))
    (htorn : ∀ b, e ≠ .torn b) (hverification : ∀ b, e ≠ .verification b) :
    m.AllOrNothing a expected new (.error e, m) where
  ok_iff := iff_of_false nofun h
  bytes_eq hok := nomatch hok
  byte_eq _ _ := rfl
  page_eq := rfl
  not_torn b heq := htorn b (Except.error.inj heq)
  not_verification b heq := hverification b (Except.error.inj heq)

/-- The report of a mismatch is all in which the two writes differ. -/
theorem writeChecked_of_error {m' : Memory} {e : MemoryError}
    (h : m.writeExact a expected new = (.error e, m')) :
    ∃ e', m.writeChecked a expected new = (.error e', m') ∧
      (e' = e ∨ ∃ b found, e' = .unexpectedBytes b expected found) := by
  cases e <;> simp [writeChecked, h]

/-- A checked write is made as a whole or not at all, and never ends torn or unverified. -/
theorem writeExact_writeChecked_atomic (m : Memory) (a : Nat) (expected new : List UInt8) :
    m.AllOrNothing a expected new (m.writeExact a expected new) ∧
      m.AllOrNothing a expected new (m.writeChecked a expected new) := by
  by_cases h : m.Admits a new.length ∧ m.bytes a new.length = expected
  · have hexact := writeExact_eq_ok h.1 h.2
    have hchecked : m.writeChecked a expected new = (.ok (), m.store a new) := by
      rw [writeChecked, hexact]
    rw [hexact, hchecked]
    exact ⟨allOrNothing_of_ok h, allOrNothing_of_ok h⟩
  · obtain ⟨e, hexact, htorn, hverification⟩ := writeExact_eq_error h
    obtain ⟨e', hchecked, hreport⟩ := writeChecked_of_error hexact
    rw [hexact, hchecked]
    refine ⟨allOrNothing_of_error h htorn hverification, ?_⟩
    rcases hreport with rfl | ⟨b, found, rfl⟩
    · exact allOrNothing_of_error h htorn hverification
    · exact allOrNothing_of_error h (by simp) (by simp)

end HotPatch.Memory
