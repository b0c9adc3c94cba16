import HotPatch.Proofs.Intact
import Mathlib.Algebra.BigOperators.Group.List.Basic
import Mathlib.Algebra.Ring.Int.Defs

/-!
# The ledger of one byte

One address and one value for it are fixed. Memory holds the value there or does not, and a record
that is in memory owes what restoring it would bring back. Whatever is written and restored, and in
whichever order, what memory holds and what the records owe add up to the same.
-/

namespace HotPatch

open Host

variable (x : Address) (v : UInt8)

/-- One if the bytes at `a` put `v` at `x`, otherwise zero. -/
def heldBy (a : Address) (bs : List UInt8) : Int :=
  if a ≤ x ∧ bs[x - a]? = some v then 1 else 0

def Memory.held (m : Memory) : Int := if m.byte x = v then 1 else 0

/-- What restoring the record would bring back. -/
def UndoRecord.debt (r : UndoRecord) : Int :=
  heldBy x v r.address r.before - heldBy x v r.address r.after

def debts (rs : List UndoRecord) : Int := (rs.map (UndoRecord.debt x v)).sum

section

variable {x v} {m m' : Memory} {r : UndoRecord} {rs rs' : List UndoRecord}

/-! ## Records -/

@[simp] theorem debts_nil : debts x v [] = 0 := rfl

@[simp] theorem debts_cons : debts x v (r :: rs) = r.debt x v + debts x v rs := by
  simp [debts]

@[simp] theorem debts_append : debts x v (rs ++ rs') = debts x v rs + debts x v rs' := by
  simp [debts]

theorem debts_perm (hp : rs.Perm rs') : debts x v rs = debts x v rs' := (hp.map _).sum_eq

@[simp] theorem debts_reverse (rs : List UndoRecord) : debts x v rs.reverse = debts x v rs :=
  debts_perm rs.reverse_perm

theorem debt_inverse (r : UndoRecord) : r.inverse.debt x v = -r.debt x v := by
  simp only [UndoRecord.debt, UndoRecord.inverse]
  omega

theorem debts_inverse (rs : List UndoRecord) :
    debts x v (rs.map UndoRecord.inverse) = -debts x v rs := by
  induction rs with
  | nil => rfl
  | cons r rs ih =>
      rw [List.map_cons, debts_cons, debts_cons, ih, debt_inverse]
      omega

theorem held_of_mem {a : Nat} {bs : List UInt8} {x : Nat} (hb : m.bytes a bs.length = bs)
    (hx : a ≤ x) (hlt : x < a + bs.length) : m.held x v = heldBy x v a bs := by
  have hget : bs[x - a]? = some (m.byte x) := by
    have hi : x - a < bs.length := by omega
    rw [← hb, Memory.getElem?_bytes, if_pos hi, Nat.add_sub_cancel' hx]
  simp [Memory.held, heldBy, hget, hx]

theorem heldBy_of_not_mem {a : Nat} {bs : List UInt8} {x : Nat}
    (hx : ¬ (a ≤ x ∧ x < a + bs.length)) : heldBy x v a bs = 0 := by
  refine if_neg fun h ↦ hx ⟨h.1, ?_⟩
  obtain ⟨hlt, -⟩ := List.getElem?_eq_some_iff.mp h.2
  omega

/-- To put other bytes where these are is to owe these. -/
theorem UndoRecord.held_onto (hbytes : m.bytes r.address r.before.length = r.before) :
    (r.onto m).held x v + r.debt x v = m.held x v := by
  by_cases hx : r.Covers x
  · have hafter : (r.onto m).held x v = heldBy x v r.address r.after :=
      held_of_mem (Memory.bytes_store ..) hx.1 hx.2
    have hbefore : m.held x v = heldBy x v r.address r.before :=
      held_of_mem hbytes hx.1 (r.length_eq ▸ hx.2)
    rw [hafter, hbefore, debt]
    omega
  · have hsame : (r.onto m).held x v = m.held x v := by
      rw [Memory.held, byte_onto_of_not_covers m hx, Memory.held]
    have hbefore : heldBy x v r.address r.before = 0 := heldBy_of_not_mem (r.length_eq ▸ hx)
    rw [hsame, debt, hbefore, heldBy_of_not_mem hx]
    omega

theorem UndoRecord.Fits.held_onto (hfit : r.Fits m) :
    (r.onto m).held x v + r.debt x v = m.held x v :=
  UndoRecord.held_onto hfit.bytes_eq

theorem Rewrites.held (hw : Rewrites m rs m') : m'.held x v + debts x v rs = m.held x v := by
  induction hw with
  | nil => simp
  | cons hfit _ ih =>
      have hfirst := hfit.held_onto (x := x) (v := v)
      rw [debts_cons]
      omega

end

/-! ## Hosts -/

variable (own : Bool) (total : Int)

/-- What memory holds and, if they are counted as well, what the host's own writes owe. -/
def Host.tally (h : Host) : Int := h.memory.held x v + if own then debts x v h.ownWrites else 0

/-- The address is mapped and not the pool's, and what is tallied there and the debt `d` add up to
`total`. -/
structure Host.InBalance (d : Int) (h : Host) : Prop where
  mapped : h.memory.Mapped x
  outside : ¬ h.pool.Covers x
  sound : h.pool.Sound
  balance : h.tally x v own + d = total

namespace Host.InBalance

variable {own x v total} {d d' : Int} {h h' : Host} {m : Memory} {rs : List UndoRecord}

theorem congr (hb : InBalance x v own total d h) (hd : d = d') : InBalance x v own total d' h :=
  hd ▸ hb

theorem intact (hb : InBalance x v own total d h) (hi : Intact h h') :
    InBalance x v own total d h' where
  mapped := hi.memory.mapped hb.mapped
  outside hin := hb.outside (hi.fresh x hb.mapped hin)
  sound := hi.sound hb.sound
  balance := by
    rw [tally, Memory.held, hi.memory.byte x hb.mapped hb.outside, hi.ownWrites]
    exact hb.balance

theorem quiet (hb : InBalance x v own total d h) (hq : Quiet h h') :
    InBalance x v own total d h' :=
  hb.intact hq.intact

theorem rewrites (hb : InBalance x v own total d h) (hw : Rewrites h.memory rs m)
    (hq : Quiet (h.withMemory m) h') : InBalance x v own total (d + debts x v rs) h' := by
  refine quiet (h := h.withMemory m) ⟨hw.mapped_iff.mpr hb.mapped, hb.outside, hb.sound, ?_⟩ hq
  have hheld := hw.held (x := x) (v := v)
  have hbalance := hb.balance
  simp only [tally, memory_withMemory, ownWrites_withMemory] at *
  omega

theorem unwinds (hb : InBalance x v own total (d + debts x v rs) h) (hu : Unwinds h.memory rs m)
    (hq : Quiet (h.withMemory m) h') : InBalance x v own total d h' := by
  have hback := hb.rewrites hu hq
  rw [debts_inverse, debts_reverse] at hback
  exact hback.congr (by omega)

/-- Where the host's own writes are counted, they make no difference. -/
theorem poke (hb : InBalance x v true total d h) (a : Address) (bs : List UInt8) :
    InBalance x v true total d (h.poke a bs) where
  mapped := hb.mapped
  outside := hb.outside
  sound := hb.sound
  balance := by
    have hheld : (h.memory.store a bs).held x v + (UndoRecord.ofWrite h.memory a bs).debt x v =
        h.memory.held x v := by
      refine UndoRecord.held_onto (r := .ofWrite h.memory a bs) ?_
      rw [UndoRecord.length_eq]
      rfl
    have hbalance := hb.balance
    simp only [tally, if_true, Host.poke, debts_cons] at *
    omega

end Host.InBalance

end HotPatch
