import HotPatch.Patch.Change
import HotPatch.Proofs.Hook.Batch
import HotPatch.Proofs.Spared

/-!
# Changes that spare addresses

What was recorded of a patch knows all that it may write: the records of its transactions and of its
prepared hooks, and what scripted hooks write in passing. If none of that touches certain addresses,
then nothing does that is done with the changes later, however it ends.
-/

namespace HotPatch

open Host

variable {on : Address → Prop} {h : Host}

/-! ## Hooks -/

namespace Hook

variable {k : Hook} {ks : List Hook} {r : UndoRecord}

/-- A prepared hook that keeps clear of `on`. A scripted one does so whenever it is called. -/
def Spares (on : Address → Prop) : Hook → Prop
  | .scripted k => ∀ c a bs, (k.schedule c).poke = some (a, bs) →
    ∀ x, a ≤ x → x < a + bs.length → ¬ on x
  | k => ∃ r, k.record? = some r ∧ r.Avoids on

theorem Real.spares_iff (hk : k.Real) : k.Spares on ↔ ∃ r, k.record? = some r ∧ r.Avoids on := by
  cases k with
  | slot k => exact Iff.rfl
  | inline k => exact Iff.rfl
  | scripted k => exact hk.elim

theorem Ready.call_spared (hk : k.Ready r) (hr : r.Avoids on) (c : HookCall) (h : Host) :
    ∃ a k' h', k.call c h = (a, k', h') ∧ k'.Spares on ∧ h.memory.Spared on h'.memory := by
  have hstays : k.Spares on := hk.real.spares_iff.mpr ⟨r, hk.record, hr⟩
  cases c with
  | prepare => exact ⟨_, _, _, hk.prepare h, hstays, .refl _⟩
  | detach => exact ⟨_, _, _, hk.toIdle.detach h, hstays, .refl _⟩
  | attach =>
      by_cases hfit : r.Fits h.memory
      · obtain ⟨k', h', heq, hplace, hcalm⟩ := hk.attach hfit
        refine ⟨_, k', h', heq, hplace.real.spares_iff.mpr ⟨r, hplace.record, hr⟩, ?_⟩
        rw [hcalm.memory]
        exact hr.spared_onto _
      · obtain ⟨e, k', h', heq, hidle, hrecord, hquiet⟩ := hk.toIdle.attach_of_not_fits
          fun q hq ↦ by
            cases hk.record.symm.trans hq
            exact hfit
        refine ⟨_, k', h', heq, hidle.real.spares_iff.mpr ⟨r, hrecord.trans hk.record, hr⟩, ?_⟩
        rw [hquiet.memory]
        exact .refl _

theorem InPlace.call_spared (hk : k.InPlace r) (hr : r.Avoids on) (c : HookCall) (h : Host) :
    ∃ a k' h', k.call c h = (a, k', h') ∧ k'.Spares on ∧ h.memory.Spared on h'.memory := by
  have hstays : k.Spares on := hk.real.spares_iff.mpr ⟨r, hk.record, hr⟩
  by_cases hc : c = .detach
  · subst hc
    by_cases hfit : r.inverse.Fits h.memory
    · obtain ⟨k', h', heq, hready, hcalm⟩ := hk.detach hfit
      refine ⟨_, k', h', heq, hready.real.spares_iff.mpr ⟨r, hready.record, hr⟩, ?_⟩
      rw [hcalm.memory]
      exact hr.inverse.spared_onto _
    · obtain ⟨e, heq⟩ := hk.detach_of_not_fits hfit
      exact ⟨_, k, h, heq, hstays, .refl _⟩
  · exact ⟨_, k, h, hk.call_ne_detach hc h, hstays, .refl _⟩

theorem scripted_call_spared {k : ScriptedHook} (hk : (Hook.scripted k).Spares on) (c : HookCall)
    (h : Host) : h.memory.Spared on (k.call c h).2.2.memory := by
  rcases hpoke : (k.schedule c).poke with _ | ⟨a, bs⟩
  · simp only [ScriptedHook.call, hpoke]
    split
    · exact .refl _
    · cases c <;> exact .refl _
  · have hpoked : h.memory.Spared on (h.poke a bs).memory :=
      ⟨fun _ _ ↦ rfl, fun x hx ↦ Memory.byte_store_of_not_mem fun hmem ↦
        hk c a bs hpoke x hmem.1 hmem.2 hx⟩
    simp only [ScriptedHook.call, hpoke]
    split
    · exact hpoked
    · cases c <;> exact hpoked

/-- A call is counted, and what the hook writes in passing stays the same. -/
theorem scripted_call_spares {k : ScriptedHook} (hk : (Hook.scripted k).Spares on) (c : HookCall)
    (h : Host) : (Hook.scripted (k.call c h).2.1).Spares on := by
  have hcounted : (Hook.scripted (k.count c)).Spares on := by
    intro d a bs hpoke
    refine hk d a bs ?_
    simp only [ScriptedHook.count] at hpoke
    split at hpoke
    · rename_i heq
      rw [heq]
      exact hpoke
    · exact hpoke
  unfold ScriptedHook.call
  simp only
  split
  · exact hcounted
  · cases c <;> exact hcounted

/-- A hook that keeps clear of `on` goes on to do so, whatever it is called for. -/
theorem Spares.call (hk : k.Spares on) (c : HookCall) (h : Host) :
    ∃ a k' h', k.call c h = (a, k', h') ∧ k'.Spares on ∧ h.memory.Spared on h'.memory := by
  by_cases hreal : k.Real
  · obtain ⟨r, hrecord, hr⟩ := hreal.spares_iff.mp hk
    rcases hreal.idle_or_inPlace with hidle | ⟨q, hplace⟩
    · exact Ready.call_spared ⟨hidle, hrecord⟩ hr c h
    · cases hplace.record.symm.trans hrecord
      exact hplace.call_spared hr c h
  · cases k with
    | slot k => exact absurd trivial hreal
    | inline k => exact absurd trivial hreal
    | scripted k =>
        exact ⟨_, _, _, rfl, scripted_call_spares hk c h, scripted_call_spared hk c h⟩

theorem Spares.release (hk : k.Spares on) (h : Host) : h.memory.Spared on (k.release h).memory := by
  obtain ⟨a, k', h', heq, -, hs⟩ := hk.call .detach h
  have hlast : h.memory.Spared on (k.detachLast h).2.memory := by
    unfold detachLast detach
    rw [heq]
    split
    · cases a <;> exact hs
    · exact .refl _
  unfold Hook.release
  split
  · exact hlast
  · split
    · rename_i heq'
      rw [heq'] at hlast
      unfold InlineHook.discard
      split
      · split <;> exact hlast
      · exact hlast
    · rename_i heq'
      rw [heq'] at hlast
      exact hlast
  · exact .refl _

theorem releaseAll_spared (hks : ∀ k ∈ ks, k.Spares on) (h : Host) :
    h.memory.Spared on (releaseAll ks h).memory := by
  induction ks generalizing h with
  | nil => exact .refl _
  | cons k ks ih =>
      obtain ⟨hk, hrest⟩ := List.forall_mem_cons.mp hks
      exact (hk.release h).trans (ih hrest _)

end Hook

/-! ## Batches -/

def Numbered.Spares (on : Address → Prop) (k : Numbered) : Prop := k.2.Spares on

namespace Sweep

variable {done rest : List Numbered}

theorem unwind_spared (undo : HookCall) (hks : ∀ k ∈ done, Numbered.Spares on k) (h : Host) :
    ∃ done' stuck h', unwind undo done h = (done', stuck, h') ∧
      (∀ k ∈ done', Numbered.Spares on k) ∧ h.memory.Spared on h'.memory := by
  induction done generalizing h with
  | nil => exact ⟨[], none, h, rfl, hks, .refl _⟩
  | cons p done ih =>
      obtain ⟨index, k⟩ := p
      obtain ⟨hk, hrest⟩ := List.forall_mem_cons.mp hks
      obtain ⟨a, k', h₁, heq, hk', hs⟩ := Hook.Spares.call hk undo h
      obtain ⟨done', later, h₂, heq', hdone', hs'⟩ := ih hrest h₁
      have hall : ∀ q ∈ (index, k') :: done', Numbered.Spares on q :=
        List.forall_mem_cons.mpr ⟨hk', hdone'⟩
      simp only [unwind, heq, heq']
      cases a with
      | ok u => exact ⟨_, _, _, rfl, hall, hs.trans hs'⟩
      | error e => exact ⟨_, _, _, rfl, hall, hs.trans hs'⟩

theorem run_spared (call undo : HookCall) (hdone : ∀ k ∈ done, Numbered.Spares on k)
    (hrest : ∀ k ∈ rest, Numbered.Spares on k) (h : Host) :
    ∃ w h', run call undo done rest h = (w, h') ∧ (∀ k ∈ w.hooks, Numbered.Spares on k) ∧
      h.memory.Spared on h'.memory := by
  induction rest generalizing done h with
  | nil => exact ⟨_, h, rfl, fun k hk ↦ hdone k (List.mem_reverse.mp hk), .refl _⟩
  | cons p rest ih =>
      obtain ⟨index, k⟩ := p
      obtain ⟨hk, hrest⟩ := List.forall_mem_cons.mp hrest
      obtain ⟨a, k', h₁, heq, hk', hs⟩ := Hook.Spares.call hk call h
      rw [run, heq]
      cases a with
      | ok u =>
          have hmore : ∀ q ∈ (index, k') :: done, Numbered.Spares on q :=
            List.forall_mem_cons.mpr ⟨hk', hdone⟩
          obtain ⟨w, h₂, heq', hw, hs'⟩ := ih hmore hrest h₁
          exact ⟨w, h₂, heq', hw, hs.trans hs'⟩
      | error e =>
          obtain ⟨done', stuck, h₂, heq', hdone', hs'⟩ := unwind_spared undo hdone h₁
          simp only [heq']
          refine ⟨_, h₂, rfl, ?_, hs.trans hs'⟩
          refine List.forall_mem_append.mpr ⟨fun k hk ↦ hdone' k (List.mem_reverse.mp hk), ?_⟩
          exact List.forall_mem_cons.mpr ⟨hk', hrest⟩

end Sweep

namespace Batch

variable {b : Batch} {ks : List Hook}

def Spares (on : Address → Prop) (b : Batch) : Prop := ∀ k ∈ b.hooks, k.Spares on

theorem number_spares (hks : ∀ k ∈ ks, k.Spares on) (index : Nat) :
    ∀ k ∈ number index ks, Numbered.Spares on k := by
  intro p hp
  rw [← map_number index ks] at hks
  exact hks p.2 (List.mem_map_of_mem hp)

theorem prepareFrom_spared (hks : ∀ k ∈ ks, k.Spares on) (index : Nat) (h : Host) :
    ∃ failure ks' h', prepareFrom index ks h = (failure, ks', h') ∧
      (∀ k ∈ ks', k.Spares on) ∧ h.memory.Spared on h'.memory := by
  induction ks generalizing index h with
  | nil => exact ⟨none, [], h, rfl, hks, .refl _⟩
  | cons k ks ih =>
      obtain ⟨hk, hrest⟩ := List.forall_mem_cons.mp hks
      obtain ⟨a, k', h₁, heq, hk', hs⟩ := hk.call .prepare h
      rw [prepareFrom, Hook.prepare, heq]
      cases a with
      | error e => exact ⟨_, _, h₁, rfl, List.forall_mem_cons.mpr ⟨hk', hrest⟩, hs⟩
      | ok u =>
          obtain ⟨failure, ks', h₂, heq', hks', hs'⟩ := ih hrest (index + 1) h₁
          simp only [heq']
          exact ⟨_, _, h₂, rfl, List.forall_mem_cons.mpr ⟨hk', hks'⟩, hs.trans hs'⟩

theorem memory_reportMismatch (e : HookError) (h : Host) :
    (reportMismatch e h).memory = h.memory := (reportMismatch_calm e h).memory

theorem memory_reportStuck (f : HookFailure) (cause : String) (h : Host) :
    (reportStuck f cause h).2.memory = h.memory := memory_reportMismatch ..

theorem Spares.attach (hb : b.Spares on) (h : Host) :
    ∃ r b' h', b.attach h = (r, b', h') ∧ b'.Spares on ∧ h.memory.Spared on h'.memory := by
  unfold Batch.attach
  split
  · exact ⟨_, b, h, rfl, hb, .refl _⟩
  · obtain ⟨failure, ks, h₁, heq, hks, hs⟩ := prepareFrom_spared hb 0 h
    rw [heq]
    cases failure with
    | some f => exact ⟨_, _, h₁, rfl, hks, hs⟩
    | none =>
        obtain ⟨⟨swept, failure, stuck⟩, h₂, hrun, hswept, hs'⟩ := Sweep.run_spared .attach .detach
          (List.forall_mem_nil _) (number_spares hks 0) h₁
        have hhooks : ∀ k ∈ swept.map Prod.snd, k.Spares on := List.forall_mem_map.mpr hswept
        simp only [hrun]
        split
        · exact ⟨_, _, _, rfl, hhooks, hs.trans hs'⟩
        · split
          · refine ⟨_, _, _, rfl, hhooks, ?_⟩
            rw [memory_reportMismatch]
            exact hs.trans hs'
          · refine ⟨_, _, _, rfl, hhooks, ?_⟩
            rw [memory_reportStuck, memory_note, memory_reportMismatch]
            exact hs.trans hs'

theorem Spares.detach (hb : b.Spares on) (h : Host) :
    ∃ r b' h', b.detach h = (r, b', h') ∧ b'.Spares on ∧ h.memory.Spared on h'.memory := by
  unfold Batch.detach
  split
  · have hrest : ∀ k ∈ (number 0 b.hooks).reverse, Numbered.Spares on k :=
      fun k hk ↦ number_spares hb 0 k (List.mem_reverse.mp hk)
    obtain ⟨⟨swept, failure, stuck⟩, h₁, hrun, hswept, hs⟩ := Sweep.run_spared .detach .attach
      (List.forall_mem_nil _) hrest h
    have hhooks : ∀ k ∈ swept.reverse.map Prod.snd, k.Spares on :=
      List.forall_mem_map.mpr fun p hp ↦ hswept p (List.mem_reverse.mp hp)
    simp only [hrun]
    split
    · exact ⟨_, _, _, rfl, hhooks, hs⟩
    · split
      · refine ⟨_, _, _, rfl, hhooks, ?_⟩
        rw [memory_reportMismatch]
        exact hs
      · refine ⟨_, _, _, rfl, hhooks, ?_⟩
        rw [memory_reportStuck, memory_note, memory_reportMismatch]
        exact hs
  · exact ⟨_, b, h, rfl, hb, .refl _⟩

theorem Spares.release (hb : b.Spares on) (h : Host) :
    h.memory.Spared on (b.release h).memory := by
  obtain ⟨r, b', h', heq, hb', hs⟩ := hb.detach h
  rw [Batch.release, heq]
  cases r with
  | ok u => exact hs.trans (Hook.releaseAll_spared hb' h')
  | error e => exact hs.trans (Hook.releaseAll_spared hb' (h'.note _ _))

end Batch

/-! ## Changes -/

namespace Change

variable {c : Change} {cs done : List Change}

def Spares (on : Address → Prop) : Change → Prop
  | .writes t => t.Spares on
  | .hooks b => b.Spares on

theorem Spares.revert (hc : c.Spares on) (h : Host) :
    ∃ r c' h', c.revert h = (r, c', h') ∧ c'.Spares on ∧ h.memory.Spared on h'.memory := by
  cases c with
  | writes t =>
      obtain ⟨ht, hs⟩ := Transaction.Spares.rollback hc h
      rw [Change.revert]
      rcases heq : t.rollback h with ⟨e | u, t', h'⟩
      all_goals
        rw [heq] at ht hs
        exact ⟨_, _, _, rfl, ht, hs⟩
  | hooks b =>
      obtain ⟨r, b', h', heq, hb', hs⟩ := Batch.Spares.detach hc h
      rw [Change.revert, heq]
      cases r with
      | ok u => exact ⟨_, _, _, rfl, hb', hs⟩
      | error e => exact ⟨_, _, _, rfl, hb', hs⟩

theorem Spares.reapply (hc : c.Spares on) (h : Host) :
    ∃ r c' h', c.reapply h = (r, c', h') ∧ c'.Spares on ∧ h.memory.Spared on h'.memory := by
  cases c with
  | writes t =>
      obtain ⟨ht, hs⟩ := Transaction.Spares.reapply hc h
      rw [Change.reapply]
      rcases heq : t.reapply h with ⟨e | u, t', h'⟩
      all_goals
        rw [heq] at ht hs
        exact ⟨_, _, _, rfl, ht, hs⟩
  | hooks b =>
      obtain ⟨r, b', h', heq, hb', hs⟩ := Batch.Spares.attach hc h
      rw [Change.reapply, heq]
      cases r with
      | ok u => exact ⟨_, _, _, rfl, hb', hs⟩
      | error e => exact ⟨_, _, _, rfl, hb', hs⟩

theorem Spares.release (hc : c.Spares on) (h : Host) :
    h.memory.Spared on (c.release h).memory := by
  cases c with
  | writes t => exact Transaction.Spares.release hc h
  | hooks b => exact Batch.Spares.release hc h

theorem releaseAll_spared (hcs : ∀ c ∈ cs, c.Spares on) (h : Host) :
    h.memory.Spared on (releaseAll cs h).memory := by
  induction cs generalizing h with
  | nil => exact .refl _
  | cons c cs ih =>
      obtain ⟨hc, hrest⟩ := List.forall_mem_cons.mp hcs
      exact (hc.release h).trans (ih hrest _)

theorem reapplyEach_spared (hcs : ∀ c ∈ cs, c.Spares on) (h : Host) :
    ∃ cs' h', reapplyEach cs h = (cs', h') ∧ (∀ c ∈ cs', c.Spares on) ∧
      h.memory.Spared on h'.memory := by
  induction cs generalizing h with
  | nil => exact ⟨[], h, rfl, hcs, .refl _⟩
  | cons c cs ih =>
      obtain ⟨hc, hrest⟩ := List.forall_mem_cons.mp hcs
      obtain ⟨r, c', h₁, heq, hc', hs⟩ := hc.reapply h
      rw [reapplyEach, heq]
      cases r with
      | ok u =>
          obtain ⟨cs', h₂, heq', hcs', hs'⟩ := ih hrest h₁
          simp only [heq']
          exact ⟨_, h₂, rfl, List.forall_mem_cons.mpr ⟨hc', hcs'⟩, hs.trans hs'⟩
      | error e =>
          obtain ⟨cs', h₂, heq', hcs', hs'⟩ := ih hrest
            (h₁.note .error ("Failed to re-apply change after aborted revert: " ++ e.message))
          simp only [heq']
          exact ⟨_, h₂, rfl, List.forall_mem_cons.mpr ⟨hc', hcs'⟩, hs.trans hs'⟩

theorem revertEach_spared (hcs : ∀ c ∈ cs, c.Spares on) (hdone : ∀ c ∈ done, c.Spares on)
    (h : Host) :
    ∃ r cs' h', revertEach cs done h = (r, cs', h') ∧ (∀ c ∈ cs', c.Spares on) ∧
      h.memory.Spared on h'.memory := by
  induction cs generalizing done h with
  | nil => exact ⟨_, done, h, rfl, hdone, .refl _⟩
  | cons c cs ih =>
      obtain ⟨hc, hrest⟩ := List.forall_mem_cons.mp hcs
      obtain ⟨r, c', h₁, heq, hc', hs⟩ := hc.revert h
      rw [revertEach, heq]
      cases r with
      | ok u =>
          obtain ⟨r, cs', h₂, heq', hcs', hs'⟩ :=
            ih hrest (List.forall_mem_cons.mpr ⟨hc', hdone⟩) h₁
          exact ⟨r, cs', h₂, heq', hcs', hs.trans hs'⟩
      | error e =>
          obtain ⟨done', h₂, heq', hdone', hs'⟩ := reapplyEach_spared hdone h₁
          simp only [heq']
          refine ⟨_, _, h₂, rfl, List.forall_mem_append.mpr ⟨fun c hc ↦ ?_, ?_⟩, hs.trans hs'⟩
          · exact hrest c (List.mem_reverse.mp hc)
          · exact List.forall_mem_cons.mpr ⟨hc', hdone'⟩

/-- Whether all changes are reverted or the attempt breaks off, nothing is written to `on`. -/
theorem revertAll_spared (hcs : ∀ c ∈ cs, c.Spares on) (h : Host) :
    ∃ r cs' h', revertAll cs h = (r, cs', h') ∧ (∀ c ∈ cs', c.Spares on) ∧
      h.memory.Spared on h'.memory :=
  revertEach_spared (fun c hc ↦ hcs c (List.mem_reverse.mp hc)) (List.forall_mem_nil _) h

end Change

end HotPatch
