import HotPatch.Proofs.Hook.Calls
import HotPatch.Proofs.Hook.Custody

/-!
# The trampolines of batches

Batches only call their hooks, so what holds of one call holds of whole batches, whichever of the
calls fail and whatever is taken back then.
-/

namespace HotPatch

namespace Hook

variable {h h' : Host} {k' : Hook} {ks ks' : List Hook}

theorem Calls.handles (a : Calls h ks h' ks') : Handles h ks h' ks' := by
  induction a with
  | perm hperm => exact (Handles.refl _ _).perm (.refl _) hperm.symm
  | note h ks level message => exact .of_samePool (h.note_samePool level message)
  | call k c h ks => exact (k.call_handles c h).frame ks
  | trans _ _ ih₁ ih₂ => exact ih₁.trans ih₂

/-- A hook that owns nothing may end. -/
theorem Handles.drop (a : Handles h ks h' [k']) (hk' : k'.owned = 0) : Handles h ks h' [] := by
  intro hks
  obtain ⟨hpass, -⟩ := a hks
  rw [ownedBy_singleton, hk'] at hpass
  exact ⟨hpass, List.forall_mem_nil _⟩

/-! ## The end of a hook -/

theorem fst_detachLast (k : Hook) (h : Host) :
    (k.detachLast h).1 = k ∨ (k.detachLast h).1 = (k.detach h).2.1 := by
  unfold detachLast
  split
  · split
    · rename_i heq
      rw [heq]
      exact .inr rfl
    · rename_i heq
      rw [heq]
      exact .inr rfl
  · exact .inl rfl

theorem discard_handles (k : InlineHook) (h : Host) : Handles h [.inline k] (k.discard h) [] := by
  intro _
  rw [ownedBy_singleton]
  exact ⟨k.discard_passes h, List.forall_mem_nil _⟩

/-- The end of a hook returns no more than its trampoline. -/
theorem release_handles (k : Hook) (h : Host) : Handles h [k] (k.release h) [] := by
  have hlast := (k.detachLast_calls h).handles
  have hkind := k.fst_detachLast h
  cases k with
  | slot k =>
      refine hlast.drop ?_
      rcases hkind with heq | heq
      · rw [heq]
        rfl
      · rw [heq]
        rfl
  | inline k =>
      unfold release
      generalize (Hook.inline k).detachLast h = last at hlast hkind
      obtain ⟨k', h'⟩ := last
      rcases hkind with rfl | rfl
      · exact hlast.trans (discard_handles _ h')
      · exact hlast.trans (discard_handles _ h')
  | scripted k => exact (Handles.refl h [.scripted k]).drop rfl

theorem releaseAll_handles (ks : List Hook) (h : Host) : Handles h ks (releaseAll ks h) [] := by
  induction ks generalizing h with
  | nil => exact .refl h []
  | cons k ks ih => exact ((k.release_handles h).frame ks).trans (ih (k.release h))

/-! ## Making hooks -/

/-- A new hook has no trampoline. -/
theorem ofPlan_handles (p : HookPlan) (h : Host) :
    Handles h [] (ofPlan p h).2 [(ofPlan p h).1] := by
  have hnew {k : Hook} {h' : Host} (hsame : h.SamePool h') (hk : k.owned = 0)
      (hknown : ∀ slots, k.Known slots) : Handles h [] h' [k] := by
    intro _
    rw [ownedBy_singleton, hk]
    exact ⟨.of_samePool hsame, List.forall_mem_singleton.mpr (hknown _)⟩
  cases p with
  | slot name pointer detour passage => exact hnew ⟨rfl, rfl⟩ rfl fun _ ↦ trivial
  | inline name target detour passage => exact hnew ⟨rfl, rfl⟩ rfl fun _ ↦ nofun
  | scripted k => exact hnew ⟨rfl, rfl⟩ rfl fun _ ↦ trivial

theorem ofPlans_handles (ps : List HookPlan) (h : Host) :
    Handles h [] (ofPlans ps h).2 (ofPlans ps h).1 := by
  induction ps generalizing h with
  | nil => exact .refl h []
  | cons p ps ih =>
      exact (ofPlan_handles p h).trans ((ih (ofPlan p h).2).frame_left [(ofPlan p h).1])

end Hook

open Hook

namespace Batch

theorem attach_handles (b : Batch) (h : Host) :
    Handles h b.hooks (b.attach h).2.2 (b.attach h).2.1.hooks := (b.attach_calls h).handles

theorem detach_handles (b : Batch) (h : Host) :
    Handles h b.hooks (b.detach h).2.2 (b.detach h).2.1.hooks := (b.detach_calls h).handles

/-- When a batch is given up, its hooks return what they own. -/
theorem release_handles (b : Batch) (h : Host) : Handles h b.hooks (b.release h) [] := by
  have hdetach := b.detach_handles h
  unfold release
  generalize b.detach h = detached at hdetach
  obtain ⟨r, b', h'⟩ := detached
  cases r with
  | ok u => exact hdetach.trans (releaseAll_handles b'.hooks h')
  | error e =>
      refine (hdetach.trans ?_).trans (releaseAll_handles b'.hooks _)
      exact .of_samePool (h'.note_samePool ..)

end Batch

end HotPatch
