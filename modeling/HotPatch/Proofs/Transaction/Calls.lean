import HotPatch.Proofs.Runs
import HotPatch.Proofs.Transaction.Rooted

/-!
# Calls in any order

A transaction takes writes, commits and rollbacks whenever they come. Until it is rolled back it can
always be: memory then is as it was when the transaction was made. Once it is rolled back, a write
is made but never undone, and a commit declares writes to be in place that are not. Those two kinds
of calls are the only ones that can do harm, and they do unless they happen to change nothing.
-/

namespace HotPatch

namespace Transaction

inductive Call where
  | write (w : Write)
  | commit
  | rollback
  deriving DecidableEq, Repr

namespace Call

def run (c : Call) (s : Transaction × Host) : Transaction × Host :=
  match c with
  | .write w => (s.1.perform w s.2).2
  | .commit => (s.1.commit, s.2)
  | .rollback => (s.1.rollback s.2).2

def runAll : List Call → Transaction × Host → Transaction × Host
  | [], s => s
  | c :: cs, s => runAll cs (c.run s)

/-- Once the transaction is rolled back, the call changes no byte, and commits only what is in
memory anyway. -/
def Harmless (c : Call) (s : Transaction × Host) : Prop :=
  s.1.phase = .rolledBack →
    match c with
    | .write w => (s.1.perform w s.2).2.2.memory = s.2.memory
    | .commit => ∃ m, Unwinds s.2.memory s.1.records m
    | .rollback => True

end Call

/-- All that the transaction ever wrote is undone, or a rollback undoes it: memory is `m₀` then. -/
def Settled (m₀ : Memory) (s : Transaction × Host) : Prop :=
  if s.1.phase = .rolledBack then s.2.memory = m₀
  else (s.1.rollback s.2).1 = .ok () ∧ (s.1.rollback s.2).2.2.memory = m₀

variable {m₀ : Memory} {t : Transaction} {h : Host}

def RootedAt (m₀ : Memory) (s : Transaction × Host) : Prop := Rooted m₀ s.1.records s.2.memory

theorem settled_of_rolledBack (hphase : t.phase = .rolledBack) :
    Settled m₀ (t, h) ↔ h.memory = m₀ := by
  rw [Settled, if_pos hphase]

theorem settled_of_not_rolledBack (hroot : RootedAt m₀ (t, h)) (hphase : t.phase ≠ .rolledBack) :
    Settled m₀ (t, h) ↔ ∃ m, Unwinds h.memory t.records m := by
  rw [Settled, if_neg hphase]
  constructor
  · rintro ⟨hok, -⟩
    rcases rollback_cases hphase h with ⟨m, hu, -⟩ | ⟨-, e, heq⟩
    · exact ⟨m, hu⟩
    · rw [heq] at hok
      cases hok
  · rintro ⟨m, hu⟩
    have heq := rollback_eq_ok hphase hu
    rw [heq]
    exact ⟨rfl, hroot.eq_of_unwinds hu⟩

/-! ## One call -/

/-- Undoing leads back to `m₀`, so whichever calls come, the writes listed start from there. -/
theorem RootedAt.run (hroot : RootedAt m₀ (t, h)) (c : Call) : RootedAt m₀ (c.run (t, h)) := by
  cases c with
  | write w =>
      rcases t.perform_cases w h with ⟨e, heq⟩ | ⟨r, hfit, -, -, message, heq⟩
      · rw [Call.run, heq]
        exact hroot
      · rw [Call.run, heq]
        exact hroot.write hfit
  | commit => exact hroot
  | rollback =>
      by_cases hphase : t.phase = .rolledBack
      · rw [Call.run, rollback_of_rolledBack hphase]
        exact hroot
      · rcases rollback_cases hphase h with ⟨m, hu, heq⟩ | ⟨-, e, heq⟩
        · rw [Call.run, heq]
          have hstart : m = m₀ := hroot.eq_of_unwinds hu
          exact hstart ▸ hroot.rewind
        · rw [Call.run, heq]
          exact hroot

/-- A write keeps the transaction settled exactly if it is harmless. -/
theorem Settled.run_write (hroot : RootedAt m₀ (t, h)) (hs : Settled m₀ (t, h)) (w : Write) :
    Settled m₀ ((Call.write w).run (t, h)) ↔ (Call.write w).Harmless (t, h) := by
  have hroot' := hroot.run (.write w)
  by_cases hphase : t.phase = .rolledBack
  · have hstart := (settled_of_rolledBack hphase).mp hs
    have hphase' : (t.perform w h).2.1.phase = .rolledBack := by
      rcases t.perform_cases w h with ⟨e, heq⟩ | ⟨r, -, -, -, message, heq⟩
      · rw [heq]
        exact hphase
      · rw [heq]
        exact hphase
    rw [Call.run, settled_of_rolledBack hphase', ← hstart]
    exact ⟨fun hsame _ ↦ hsame, fun hharmless ↦ hharmless hphase⟩
  · refine iff_of_true ?_ fun hrolled ↦ absurd hrolled hphase
    obtain ⟨m, hu⟩ := (settled_of_not_rolledBack hroot hphase).mp hs
    rcases t.perform_cases w h with ⟨e, heq⟩ | ⟨r, hfit, -, -, message, heq⟩
    · rw [Call.run, heq]
      exact hs
    · rw [Call.run, heq] at hroot' ⊢
      refine (settled_of_not_rolledBack hroot' hphase).mpr ⟨m, ?_⟩
      exact Unwinds.append_iff.mpr ⟨h.memory, (Rewrites.single hfit).unwinds, hu⟩

theorem Settled.run_commit (hroot : RootedAt m₀ (t, h)) (hs : Settled m₀ (t, h)) :
    Settled m₀ (Call.commit.run (t, h)) ↔ Call.commit.Harmless (t, h) := by
  have hphase' : t.commit.phase ≠ .rolledBack := by simp [commit]
  have hroot' : RootedAt m₀ (t.commit, h) := hroot.run .commit
  rw [Call.run, settled_of_not_rolledBack hroot' hphase']
  constructor
  · intro hu _
    exact hu
  · intro hharmless
    by_cases hphase : t.phase = .rolledBack
    · exact hharmless hphase
    · exact (settled_of_not_rolledBack hroot hphase).mp hs

theorem Settled.run_rollback (hroot : RootedAt m₀ (t, h)) (hs : Settled m₀ (t, h)) :
    Settled m₀ (Call.rollback.run (t, h)) := by
  by_cases hphase : t.phase = .rolledBack
  · rw [Call.run, rollback_of_rolledBack hphase]
    exact hs
  · obtain ⟨m, hu⟩ := (settled_of_not_rolledBack hroot hphase).mp hs
    rw [Call.run, rollback_eq_ok hphase hu]
    exact (settled_of_rolledBack rfl).mpr (hroot.eq_of_unwinds hu)

theorem Settled.run_iff (hroot : RootedAt m₀ (t, h)) (hs : Settled m₀ (t, h)) (c : Call) :
    Settled m₀ (c.run (t, h)) ↔ c.Harmless (t, h) := by
  cases c with
  | write w => exact run_write hroot hs w
  | commit => exact run_commit hroot hs
  | rollback => exact iff_of_true (run_rollback hroot hs) fun _ ↦ trivial

/-! ## Any sequence of calls -/

theorem Settled.runAll_iff {s : Transaction × Host} (cs : List Call) (hroot : RootedAt m₀ s)
    (hs : Settled m₀ s) :
    (∀ pre, pre <+: cs → Settled m₀ (Call.runAll pre s)) ↔
      ∀ pre c, pre ++ [c] <+: cs → c.Harmless (Call.runAll pre s) := by
  apply forall_prefix_iff Call.runAll Call.run (RootedAt m₀) (Settled m₀) Call.Harmless
  · exact fun _ ↦ rfl
  · exact fun _ _ _ ↦ rfl
  · exact fun c s hroot ↦ hroot.run c
  · exact fun c s hroot hs ↦ hs.run_iff hroot c
  · exact hroot
  · exact hs

/-- After each call of a sequence, what a fresh transaction wrote is undone or can be undone, as
long as each call is harmless when its turn comes, and not beyond the first that is not. -/
theorem settled_iff_harmless (h : Host) (cs : List Call) :
    (∀ pre, pre <+: cs → Settled h.memory (Call.runAll pre (.empty, h))) ↔
      ∀ pre c, pre ++ [c] <+: cs → c.Harmless (Call.runAll pre (.empty, h)) := by
  have hroot : RootedAt h.memory (.empty, h) := .nil h.memory
  have hphase : empty.phase ≠ .rolledBack := by decide
  exact ((settled_of_not_rolledBack hroot hphase).mpr ⟨_, .nil _⟩).runAll_iff cs hroot

/-- After a rollback, a write stays although the transaction counts as rolled back, and a commit
leaves a transaction that cannot be rolled back. -/
theorem not_settled_after_rollback :
    let h : Host := .onePage
    let s := Call.runAll [.write (.bytes 0 [170]), .rollback, .write (.bytes 0 [187])] (.empty, h)
    let s' := Call.runAll [.write (.bytes 0 [170]), .rollback, .commit] (.empty, h)
    (s.1.phase = .rolledBack ∧ s.2.memory.byte 0 = 187 ∧ ¬ Settled h.memory s) ∧
      s'.1.phase = .committed ∧
        (s'.1.rollback s'.2).1 = .error (.unexpectedBytes 0 [170] [0]) ∧
        ¬ Settled h.memory s' := by
  intro h s s'
  have hphase : s.1.phase = .rolledBack := by decide
  have hbyte : s.2.memory.byte 0 = 187 := by decide
  have hphase' : s'.1.phase = .committed := by decide
  have hstuck : (s'.1.rollback s'.2).1 = .error (.unexpectedBytes 0 [170] [0]) := by
    decide +kernel
  -- what the runs come to is known now; without their values no step computes them again
  clear_value s s'
  refine ⟨⟨hphase, hbyte, fun hs ↦ ?_⟩, hphase', hstuck, fun hs ↦ ?_⟩
  · have hsame : s.2.memory = h.memory := (settled_of_rolledBack hphase).mp hs
    rw [hsame] at hbyte
    revert hbyte
    decide
  · rw [Settled, if_neg (by rw [hphase']; decide), hstuck] at hs
    cases hs.1

end Transaction

end HotPatch
