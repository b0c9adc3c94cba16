import HotPatch.Proofs.Transaction.Basic

/-!
# Transactions are atomic

Whatever writes a transaction was asked for, and whichever of them failed, it can be undone as long
as nobody else writes.
-/

namespace HotPatch

namespace Transaction

def performAll : List Write → Transaction → Host → Transaction × Host
  | [], t, h => (t, h)
  | w :: ws, t, h =>
    match t.perform w h with
    | (_, t, h) => performAll ws t h

/-- Writes only add records, which lead from memory as it was to memory as it is. -/
theorem performAll_spec (ws : List Write) (t : Transaction) (h : Host) :
    (performAll ws t h).1.phase = t.phase ∧
      ∃ rs, (performAll ws t h).1.records = t.records ++ rs ∧
        Rewrites h.memory rs (performAll ws t h).2.memory := by
  induction ws generalizing t h with
  | nil => exact ⟨rfl, [], (List.append_nil _).symm, .nil _⟩
  | cons w ws ih =>
      rcases t.perform_cases w h with ⟨e, heq⟩ | ⟨r, hfit, -, -, message, heq⟩
      · rw [performAll, heq]
        exact ih t h
      · rw [performAll, heq]
        obtain ⟨hphase, rs, hrecords, hw⟩ := ih { t with records := t.records ++ [r] }
          ((h.withMemory (r.onto h.memory)).note .debug message)
        refine ⟨hphase, r :: rs, ?_, .cons hfit hw⟩
        rw [hrecords, List.append_assoc, List.singleton_append]

theorem unwinds_performAll (ws : List Write) (h : Host) :
    (performAll ws .empty h).1.phase = .active ∧
      Unwinds (performAll ws .empty h).2.memory (performAll ws .empty h).1.records h.memory := by
  obtain ⟨hphase, rs, hrecords, hw⟩ := performAll_spec ws .empty h
  refine ⟨hphase, ?_⟩
  rw [hrecords]
  exact hw.unwinds

/-- After any writes to a fresh transaction: one more write either fails and changes nothing, or
puts its bytes into memory and records what they replaced. Giving the transaction up, or rolling it
back, committed or not, succeeds and leads back to memory as it was at the start. -/
theorem writes_atomic (ws : List Write) (w : Write) (h : Host) :
    let t := (performAll ws .empty h).1
    let h₁ := (performAll ws .empty h).2
    (((∃ e, (t.perform w h₁).1 = .error e) ∧ (t.perform w h₁).2 = (t, h₁)) ∨
        (t.perform w h₁).1 = .ok () ∧ ∃ r, r.address = w.address ∧ w.code? = some r.after ∧
          r.before = h₁.memory.bytes w.address r.after.length ∧
          (t.perform w h₁).2.1.records = t.records ++ [r] ∧
          (t.perform w h₁).2.2.memory = h₁.memory.store w.address r.after) ∧
      (t.release h₁).memory = h.memory ∧ (t.release h₁).log = h₁.log ∧
      ∀ t', t' = t ∨ t' = t.commit →
        (t'.rollback h₁).1 = .ok () ∧ (t'.rollback h₁).2.2.memory = h.memory := by
  intro t h₁
  obtain ⟨hphase, hu⟩ := unwinds_performAll ws h
  refine ⟨?_, ?_, ?_, ?_⟩
  · rcases t.perform_cases w h₁ with ⟨e, heq⟩ | ⟨r, hfit, haddress, hcode, message, heq⟩
    · exact .inl ⟨⟨e, by rw [heq]⟩, by rw [heq]⟩
    · refine .inr ⟨by rw [heq], r, haddress, hcode, ?_, by rw [heq], ?_⟩
      · rw [← haddress, ← r.length_eq, hfit.bytes_eq]
      · rw [heq, ← haddress]
        rfl
  · rw [release_of_active hphase hu]
    rfl
  · rw [release_of_active hphase hu]
    rfl
  · rintro t' (rfl | rfl)
    · rw [rollback_eq_ok (by rw [hphase]; decide) hu]
      exact ⟨rfl, rfl⟩
    · rw [rollback_eq_ok (by simp [commit]) (t := t.commit) hu]
      exact ⟨rfl, rfl⟩

end Transaction

end HotPatch
