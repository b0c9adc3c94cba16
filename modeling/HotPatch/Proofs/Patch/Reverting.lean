import HotPatch.Proofs.Patch.Change

/-!
# Reverting is atomic

Changes in force are all reverted, or none is: when one of them cannot be, memory is as it was when
that one was applied, so those after it can be applied again by the records that they had.
-/

namespace HotPatch

open Host List

namespace Change

variable {cs done : List Change} {rss dss : List (List UndoRecord)} {h : Host} {m m₀ : Memory}

theorem spent_of_undone (hcs : Forall₂ Undone cs rss) : ∀ c ∈ cs, c.Spent := by
  induction hcs with
  | nil =>
      intro c hc
      cases hc
  | cons hc _ ih => exact forall_mem_cons.mpr ⟨hc.spent, ih⟩

/-- Changes that were just reverted are applied again by the same records. -/
theorem reapplyEach_eq (hcs : Forall₂ Undone cs rss) (hw : Rewrites h.memory rss.flatten m) :
    ∃ cs' h', reapplyEach cs h = (cs', h') ∧ Forall₂ InForce cs' rss ∧
      Calm (h.withMemory m) h' := by
  induction hcs generalizing h with
  | nil =>
      cases hw
      exact ⟨[], h, rfl, .nil, .refl h⟩
  | @cons c rs cs rss hc _ ih =>
      obtain ⟨m₁, hfirst, hrest⟩ := Rewrites.append_iff.mp hw
      obtain ⟨c', h₁, heq, hforce, hcalm⟩ := hc.reapply hfirst
      have hmemory : h₁.memory = m₁ := hcalm.memory
      rw [← hmemory] at hrest
      obtain ⟨cs', h₂, heq', hforces, hcalm'⟩ := ih hrest
      refine ⟨c' :: cs', h₂, ?_, .cons hforce hforces, (hcalm.withMemory m).trans hcalm'⟩
      simp only [reapplyEach, heq, heq']

/-- Reverting, `done` being what was reverted so far, goes all the way or back to `m₀`. -/
theorem revertEach_cases (hdone : Forall₂ Undone done dss)
    (hback : Rewrites h.memory dss.flatten m₀)
    (hcs : Forall₂ InForce cs rss) :
    (∃ cs' h' m, revertEach cs done h = (.ok (), cs', h') ∧
        Forall₂ Undone cs' (rss.reverse ++ dss) ∧ Unwinds h.memory rss.reverse.flatten m ∧
        Calm (h.withMemory m) h') ∨
      (¬ ∃ m, Unwinds h.memory rss.reverse.flatten m) ∧
        ∃ e cs' h', revertEach cs done h = (.error e, cs', h') ∧
          Forall₂ InForce cs' (rss.reverse ++ dss) ∧ Calm (h.withMemory m₀) h' := by
  induction hcs generalizing done dss h with
  | nil => exact .inl ⟨done, h, h.memory, rfl, hdone, .nil _, .refl h⟩
  | @cons c rs cs rss hc hcs ih =>
      have hlast {m : Memory} : Unwinds h.memory (rss.reverse ++ [rs]).flatten m ↔
          ∃ m₁, Unwinds h.memory rs m₁ ∧ Unwinds m₁ rss.reverse.flatten m := by
        rw [flatten_append, flatten_singleton, Unwinds.append_iff]
      rw [reverse_cons, append_assoc, singleton_append]
      rcases hc.revert h with
        ⟨c', h₁, m₁, heq, hundone, hu, hcalm⟩ | ⟨hnot, e, c', h₁, heq, hforce, hcalm⟩
      · have hmemory : h₁.memory = m₁ := hcalm.memory
        have hback' : Rewrites h₁.memory (rs :: dss).flatten m₀ := by
          rw [hmemory]
          exact hu.rewrites.append hback
        rw [revertEach, heq]
        rcases ih (.cons hundone hdone) hback' with
          ⟨cs', h₂, m, heq', hundones, hu', hcalm'⟩ | ⟨hnot, e, cs', h₂, heq', hforces, hcalm'⟩
        · rw [hmemory] at hu'
          exact .inl ⟨cs', h₂, m, heq', hundones, hlast.mpr ⟨m₁, hu, hu'⟩,
            (hcalm.withMemory m).trans hcalm'⟩
        · refine .inr ⟨?_, e, cs', h₂, heq', hforces, (hcalm.withMemory m₀).trans hcalm'⟩
          rintro ⟨m, hall⟩
          obtain ⟨m₂, hu₂, hrest⟩ := hlast.mp hall
          rw [hu₂.unique hu, ← hmemory] at hrest
          exact hnot ⟨m, hrest⟩
      · have hmemory : h₁.memory = h.memory := hcalm.memory
        obtain ⟨done', h₂, heq', hforces, hcalm'⟩ := reapplyEach_eq hdone (hmemory ▸ hback)
        refine .inr ⟨?_, e, cs.reverse ++ c' :: done', h₂, by simp only [revertEach, heq, heq'],
          rel_append (rel_reverse hcs) (.cons hforce hforces), (hcalm.withMemory m₀).trans hcalm'⟩
        rintro ⟨m, hall⟩
        obtain ⟨m₁, hu, -⟩ := hlast.mp hall
        exact hnot ⟨m₁, hu⟩

/-- All changes are reverted, the latest first, or all stay in force by the records that they have
and memory is as it was. -/
theorem revertAll_cases (hcs : Forall₂ InForce cs rss) (h : Host) :
    (∃ cs' h' m, revertAll cs h = (.ok (), cs', h') ∧ Forall₂ Undone cs' rss ∧
        Unwinds h.memory rss.flatten m ∧ Calm (h.withMemory m) h') ∨
      (¬ ∃ m, Unwinds h.memory rss.flatten m) ∧
        ∃ e cs' h', revertAll cs h = (.error e, cs', h') ∧ Forall₂ InForce cs' rss ∧
          Calm h h' := by
  have hcases := revertEach_cases .nil (.nil h.memory) (rel_reverse hcs)
  rwa [reverse_reverse, append_nil] at hcases

end Change

end HotPatch
