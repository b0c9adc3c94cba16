import HotPatch.Host
import HotPatch.Proofs.Memory.Write

/-!
# Writing to the host

A write either puts its bytes into memory or leaves the host as it was, log and all.
-/

namespace HotPatch

structure Memory.Holds (m : Memory) (a : Address) (bs : List UInt8) : Prop where
  admits : m.Admits a bs.length
  bytes_eq : m.bytes a bs.length = bs

namespace Host

variable {h : Host} {m m' : Memory} {a : Address} {expected new : List UInt8}

def withMemory (h : Host) (m : Memory) : Host := { h with memory := m }

@[simp] theorem memory_withMemory (h : Host) (m : Memory) : (h.withMemory m).memory = m := rfl

@[simp] theorem ownWrites_withMemory (h : Host) (m : Memory) :
    (h.withMemory m).ownWrites = h.ownWrites := rfl

@[simp] theorem withMemory_self (h : Host) : h.withMemory h.memory = h := rfl

/-- A write goes by what memory holds and permits at as many bytes as it puts there. -/
theorem holds_iff (hlength : expected.length = new.length) :
    h.memory.Holds a expected ↔
      h.memory.Admits a new.length ∧ h.memory.bytes a new.length = expected := by
  rw [← hlength]
  exact ⟨fun hold ↦ ⟨hold.admits, hold.bytes_eq⟩, fun hold ↦ ⟨hold.1, hold.2⟩⟩

theorem writeQuietly_eq_ok (hlength : expected.length = new.length)
    (hold : h.memory.Holds a expected) :
    h.writeQuietly a expected new = (.ok (), h.withMemory (h.memory.store a new)) := by
  obtain ⟨hadmits, hbytes⟩ := (holds_iff hlength).mp hold
  rw [writeQuietly, Memory.writeExact_eq_ok hadmits hbytes, assertEven_of_length_eq hlength]
  rfl

theorem writeQuietly_eq_error (hlength : expected.length = new.length)
    (hnot : ¬ h.memory.Holds a expected) : ∃ e, h.writeQuietly a expected new = (.error e, h) := by
  obtain ⟨e, he, -⟩ := Memory.writeExact_eq_error fun hfit ↦ hnot ((holds_iff hlength).mpr hfit)
  exact ⟨e, by rw [writeQuietly, he, assertEven_of_length_eq hlength]⟩

theorem write_eq_ok (hlength : expected.length = new.length) (hold : h.memory.Holds a expected) :
    h.write a expected new = (.ok (), h.withMemory (h.memory.store a new)) := by
  obtain ⟨hadmits, hbytes⟩ := (holds_iff hlength).mp hold
  rw [write, Memory.writeChecked, Memory.writeExact_eq_ok hadmits hbytes,
    assertEven_of_length_eq hlength]
  rfl

/-- A refused write leaves no trace but that of its assertion, not even in the log: it is never
torn. -/
theorem write_eq_assertEven
    (hnot : ¬ (h.memory.Admits a new.length ∧ h.memory.bytes a new.length = expected)) :
    ∃ e, h.write a expected new = (.error e, h.assertEven expected new) := by
  have hsame : { h.assertEven expected new with memory := h.memory } =
      h.assertEven expected new := by
    rw [← memory_assertEven h expected new]
  obtain ⟨e, he, htorn, -⟩ := Memory.writeExact_eq_error hnot
  rw [write, Memory.writeChecked, he]
  cases e with
  | torn b => exact absurd rfl (htorn b)
  | mismatch b len => exact ⟨_, by rw [← hsame]⟩
  | _ => exact ⟨_, by rw [← hsame]⟩

theorem write_eq_error (hlength : expected.length = new.length)
    (hnot : ¬ h.memory.Holds a expected) : ∃ e, h.write a expected new = (.error e, h) := by
  obtain ⟨e, he⟩ := write_eq_assertEven fun hfit ↦ hnot ((holds_iff hlength).mpr hfit)
  exact ⟨e, by rw [he, assertEven_of_length_eq hlength]⟩

def onePage : Host := .ofMemory (Memory.empty.map 0 1 ⟨true, true, false⟩)

end Host

end HotPatch
