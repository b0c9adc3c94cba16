import HotPatch.Proofs.Custody
import HotPatch.Proofs.Hook.Call
import Mathlib.Algebra.BigOperators.Group.List.Basic

/-!
# The trampolines of hooks

A hook owns its trampoline until it publishes it. Whatever call it receives and however that call
ends, what was published is owned by nobody, so that the end of the hook does not return it.
-/

namespace HotPatch

open Trampoline Dealings

/-- The trampoline, if giving up the redirect would return it. -/
def Redirect.owned (work : Redirect) : Multiset Slot :=
  if work.published then 0 else {work.trampoline}

theorem UndoRecord.applyQuietly_samePool (r : UndoRecord) (h : Host) :
    h.SamePool (r.applyQuietly h).2 := by
  rw [applyQuietly_snd]
  exact ⟨rfl, rfl⟩

theorem UndoRecord.restoreQuietly_samePool (r : UndoRecord) (h : Host) :
    h.SamePool (r.restoreQuietly h).2 := r.inverse.applyQuietly_samePool h

namespace InlineHook

variable {k : InlineHook} {h : Host} {slots slots' : Finset Slot}

def owned (k : InlineHook) : Multiset Slot := (k.stage.work?.map Redirect.owned).getD 0

/-- If the hook holds its trampoline for published, it is among `slots`. -/
def Known (slots : Finset Slot) (k : InlineHook) : Prop :=
  ∀ work ∈ k.stage.work?, work.published = true → work.trampoline ∈ slots

theorem Known.mono (hk : k.Known slots) (hsub : slots ⊆ slots') : k.Known slots' :=
  fun work hwork hpub ↦ hsub (hk work hwork hpub)

/-- A slot that was lent for stolen instructions is kept while it is filled. -/
theorem Filling.passes {block : List Code.Instruction} {slot : Slot} {h₁ : Host}
    {o : Except HookError Redirect × Host} (hf : k.Filling block slot h₁ o)
    (hsteal : k.steal h = .ok block)
    (hlent : h.allocate k.target (Prologue.room block) = (some slot, h₁)) :
    Passes h 0 o.2 {slot} := by
  have hpasses := h.allocate_passes k.target (room_le hsteal)
  rw [hlent] at hpasses
  have hsame : h₁.SamePool o.2 := by cases hf <;> exact ⟨rfl, rfl⟩
  exact hpasses.trans (.of_samePool hsame)

theorem owned_of_fresh (hfresh : k.stage = .fresh) : k.owned = 0 := by
  rw [owned, hfresh]
  rfl

theorem known_of_fresh (hfresh : k.stage = .fresh) (slots : Finset Slot) : k.Known slots := by
  rw [Known, hfresh]
  nofun

/-- A trampoline that is made belongs to the hook; one that cannot be used is returned. -/
theorem prepare_passes (hk : k.Known (published h.dealings)) :
    Passes h k.owned (k.prepare h).2.2 (k.prepare h).2.1.owned ∧
      (k.prepare h).2.1.Known (published (k.prepare h).2.2.dealings) := by
  have hp := k.preparing h
  generalize k.prepare h = o at hp ⊢
  cases hp with
  | done => exact ⟨.refl h _, hk⟩
  | unstolen => exact ⟨.refl h _, hk⟩
  | unlent hfresh hsteal hnone =>
      have hpasses := h.allocate_passes k.target (room_le hsteal)
      rw [hnone] at hpasses
      exact ⟨owned_of_fresh hfresh ▸ hpasses, known_of_fresh hfresh _⟩
  -- the hook keeps nothing when its trampoline cannot be filled
  | @unfilled block slot h₁ h₂ _ hfresh hsteal hlent hfill =>
      have hreturned := (hfill.passes hsteal hlent).trans (h₂.free_passes slot)
      exact ⟨owned_of_fresh hfresh ▸ hreturned, known_of_fresh hfresh _⟩
  | prepared hfresh hsteal hlent hfill =>
      have hkept := hfill.passes hsteal hlent
      rw [owned_of_fresh hfresh]
      cases hfill with
      | filled =>
          refine ⟨hkept.trans (.of_samePool ⟨rfl, rfl⟩), ?_⟩
          rintro work ⟨⟩ ⟨⟩

/-- The trampoline is published before the redirect is tried, and then has no owner. -/
theorem attach_passes (hk : k.Known (published h.dealings)) :
    Passes h k.owned (k.attach h).2.2 (k.attach h).2.1.owned ∧
      (k.attach h).2.1.Known (published (k.attach h).2.2.dealings) := by
  obtain ⟨name, target, detour, passage, stage⟩ := k
  cases stage with
  | active work => exact ⟨.refl h _, hk⟩
  | fresh => exact ⟨.refl h _, hk⟩
  | ready work =>
      have hpublish : Passes h work.owned (h.publish passage work.trampoline) 0 := by
        by_cases hpub : work.published = true
        · rw [Redirect.owned, if_pos hpub]
          exact Host.publish_again_passes (hk work rfl hpub) passage
        · rw [Redirect.owned, if_neg hpub]
          exact h.publish_passes passage work.trampoline
      have hmem := h.mem_published_publish passage work.trampoline
      have hsame := work.record.applyQuietly_samePool (h.publish passage work.trampoline)
      unfold attach
      simp only
      generalize work.record.applyQuietly (h.publish passage work.trampoline) = tried at hsame
      obtain ⟨r, h₁⟩ := tried
      have htried : Passes h work.owned h₁ 0 := hpublish.trans (.of_samePool hsame)
      rw [← hsame.dealings] at hmem
      cases r with
      | ok u =>
          refine ⟨htried, ?_⟩
          rintro work' ⟨⟩ -
          exact hmem
      | error e =>
          refine ⟨htried.trans (.of_samePool ⟨rfl, rfl⟩), ?_⟩
          rintro work' ⟨⟩ -
          exact hmem

theorem detach_passes (hk : k.Known (published h.dealings)) :
    Passes h k.owned (k.detach h).2.2 (k.detach h).2.1.owned ∧
      (k.detach h).2.1.Known (published (k.detach h).2.2.dealings) := by
  obtain ⟨name, target, detour, passage, stage⟩ := k
  cases stage with
  | fresh => exact ⟨.refl h _, hk⟩
  | ready work => exact ⟨.refl h _, hk⟩
  | active work =>
      have hsame := work.record.restoreQuietly_samePool h
      unfold detach
      simp only
      generalize work.record.restoreQuietly h = tried at hsame
      obtain ⟨r, h₁⟩ := tried
      rw [← hsame.dealings] at hk
      cases r with
      | ok u => exact ⟨(Passes.of_samePool hsame).trans (.of_samePool ⟨rfl, rfl⟩), hk⟩
      | error e => exact ⟨.of_samePool hsame, hk⟩

theorem discard_passes (k : InlineHook) (h : Host) : Passes h k.owned (k.discard h) 0 := by
  obtain ⟨name, target, detour, passage, stage⟩ := k
  have hgiven (work : Redirect) :
      Passes h work.owned (if work.published then h else h.free work.trampoline) 0 := by
    unfold Redirect.owned
    split
    · exact .refl h 0
    · exact h.free_passes work.trampoline
  cases stage with
  | fresh => exact .refl h 0
  | ready work => exact hgiven work
  | active work => exact hgiven work

end InlineHook

namespace SlotHook

variable (k : SlotHook) (h : Host)

theorem prepare_samePool : h.SamePool (k.prepare h).2.2 := by
  unfold prepare
  split
  · split <;> exact ⟨rfl, rfl⟩
  · exact ⟨rfl, rfl⟩
  · exact ⟨rfl, rfl⟩

theorem attach_samePool : h.SamePool (k.attach h).2.2 := by
  unfold attach
  split
  · exact ⟨rfl, rfl⟩
  · exact ⟨rfl, rfl⟩
  · rename_i r _
    have hsame := r.applyQuietly_samePool (h.setPassage k.passage (ofLittleEndian r.before))
    generalize r.applyQuietly _ = tried at hsame
    obtain ⟨_ | u, h₁⟩ := tried
    · exact ⟨hsame.pool, hsame.dealings⟩
    · exact ⟨hsame.pool, hsame.dealings⟩

theorem detach_samePool : h.SamePool (k.detach h).2.2 := by
  unfold detach
  split
  · exact ⟨rfl, rfl⟩
  · exact ⟨rfl, rfl⟩
  · rename_i r _
    have hsame := r.restoreQuietly_samePool h
    generalize r.restoreQuietly h = tried at hsame
    obtain ⟨_ | u, h₁⟩ := tried
    · exact hsame
    · exact hsame.trans ⟨rfl, rfl⟩

end SlotHook

theorem ScriptedHook.call_samePool (k : ScriptedHook) (c : HookCall) (h : Host) :
    h.SamePool (k.call c h).2.2 := by
  rcases hpoke : (k.schedule c).poke with _ | ⟨a, bs⟩ <;>
    simp only [call, hpoke] <;> split <;> cases c <;> exact ⟨rfl, rfl⟩

namespace Hook

variable {h h₁ h' : Host} {k : Hook} {ks ks₁ ks' ls ls' : List Hook}

def owned : Hook → Multiset Slot
  | .inline k => k.owned
  | .slot _ | .scripted _ => 0

def Known (slots : Finset Slot) : Hook → Prop
  | .inline k => k.Known slots
  | .slot _ | .scripted _ => True

theorem Known.mono {slots slots' : Finset Slot} (hk : k.Known slots) (hsub : slots ⊆ slots') :
    k.Known slots' := by
  cases k with
  | inline k => exact InlineHook.Known.mono hk hsub
  | slot k => trivial
  | scripted k => trivial

def ownedBy (ks : List Hook) : Multiset Slot := (ks.map owned).sum

theorem ownedBy_append (ks ls : List Hook) : ownedBy (ks ++ ls) = ownedBy ks + ownedBy ls := by
  rw [ownedBy, List.map_append, List.sum_append]
  rfl

theorem ownedBy_singleton (k : Hook) : ownedBy [k] = k.owned := by
  rw [ownedBy, List.map_singleton, List.sum_singleton]

theorem ownedBy_perm (hperm : ks.Perm ks') : ownedBy ks = ownedBy ks' := (hperm.map owned).sum_eq

def Handles (h : Host) (ks : List Hook) (h' : Host) (ks' : List Hook) : Prop :=
  (∀ k ∈ ks, k.Known (published h.dealings)) →
    Passes h (ownedBy ks) h' (ownedBy ks') ∧ ∀ k ∈ ks', k.Known (published h'.dealings)

namespace Handles

theorem refl (h : Host) (ks : List Hook) : Handles h ks h ks := fun hks ↦ ⟨.refl h _, hks⟩

theorem trans (a₁ : Handles h ks h₁ ks₁) (a₂ : Handles h₁ ks₁ h' ks') : Handles h ks h' ks' := by
  intro hks
  obtain ⟨hpass₁, hks₁⟩ := a₁ hks
  obtain ⟨hpass₂, hks'⟩ := a₂ hks₁
  exact ⟨hpass₁.trans hpass₂, hks'⟩

theorem of_samePool (hsame : h.SamePool h') : Handles h ks h' ks := by
  intro hks
  refine ⟨.of_samePool hsame, fun k hk ↦ ?_⟩
  rw [hsame.dealings]
  exact hks k hk

theorem perm (a : Handles h ks h' ks') (hbefore : ls.Perm ks) (hafter : ls'.Perm ks') :
    Handles h ls h' ls' := by
  intro hls
  obtain ⟨hpass, hks'⟩ := a fun k hk ↦ hls k (hbefore.mem_iff.mpr hk)
  rw [← ownedBy_perm hbefore, ← ownedBy_perm hafter] at hpass
  exact ⟨hpass, fun k hk ↦ hks' k (hafter.mem_iff.mp hk)⟩

/-- The other hooks stay as they are. -/
theorem frame (a : Handles h ks h' ks') (ls : List Hook) : Handles h (ks ++ ls) h' (ks' ++ ls) := by
  intro hall
  obtain ⟨hks, hls⟩ := List.forall_mem_append.mp hall
  obtain ⟨hpass, hks'⟩ := a hks
  rw [ownedBy_append, ownedBy_append]
  refine ⟨hpass.frame (ownedBy ls), List.forall_mem_append.mpr ⟨hks', fun k hk ↦ ?_⟩⟩
  exact (hls k hk).mono hpass.published

theorem frame_left (a : Handles h ks h' ks') (ls : List Hook) :
    Handles h (ls ++ ks) h' (ls ++ ks') :=
  (a.frame ls).perm List.perm_append_comm List.perm_append_comm

end Handles

theorem handles_inline {k k' : InlineHook}
    (hpass : k.Known (published h.dealings) →
      Passes h k.owned h' k'.owned ∧ k'.Known (published h'.dealings)) :
    Handles h [.inline k] h' [.inline k'] := by
  intro hk
  obtain ⟨hpass, hk'⟩ := hpass (hk _ (List.mem_singleton_self _))
  rw [ownedBy_singleton, ownedBy_singleton]
  exact ⟨hpass, List.forall_mem_singleton.mpr hk'⟩

/-- A hook without a trampoline. -/
theorem handles_of_owned {k k' : Hook} (hsame : h.SamePool h') (hk : k.owned = 0)
    (hk' : k'.owned = 0) (hknown : ∀ slots, k'.Known slots) : Handles h [k] h' [k'] := by
  intro _
  rw [ownedBy_singleton, ownedBy_singleton, hk, hk']
  exact ⟨.of_samePool hsame, List.forall_mem_singleton.mpr (hknown _)⟩

/-- What the pool lends in a call the hook owns afterwards, unless it was returned. -/
theorem call_handles (k : Hook) (c : HookCall) (h : Host) :
    Handles h [k] (k.call c h).2.2 [(k.call c h).2.1] := by
  cases k with
  | slot k =>
      have hkeeps {r : Except HookError Unit × SlotHook × Host} (hr : h.SamePool r.2.2) :
          Handles h [.slot k] r.2.2 [.slot r.2.1] :=
        handles_of_owned hr rfl rfl fun _ ↦ trivial
      cases c with
      | prepare => exact hkeeps (k.prepare_samePool h)
      | attach => exact hkeeps (k.attach_samePool h)
      | detach => exact hkeeps (k.detach_samePool h)
  | inline k =>
      cases c with
      | prepare => exact handles_inline InlineHook.prepare_passes
      | attach => exact handles_inline InlineHook.attach_passes
      | detach => exact handles_inline InlineHook.detach_passes
  | scripted k => exact handles_of_owned (k.call_samePool c h) rfl rfl fun _ ↦ trivial

end Hook

end HotPatch
