import HotPatch.Hook.Batch
import HotPatch.Proofs.Trampoline.Dealings
import Mathlib.Algebra.Order.Group.Multiset

/-!
# Who may give a slot back

Each live slot that may still be returned has an owner who will return it once, and a slot that was
published has none. What an operation does to the owners is told by what it takes over and what it
leaves, so that operations can be put one after the other and beside the owners that have no part in
them.
-/

namespace HotPatch

open Trampoline Dealings

/-- The owners of `owned` may return it, and what was published stays live all the same. -/
structure Custody (h : Host) (owned : Multiset Slot) : Prop where
  sound : h.pool.Sound
  whole : ∀ p ∈ h.pool.pages, p.Whole
  honest : Honest h.dealings
  covered : owned + (published h.dealings).val ≤ live h.dealings

structure Host.SamePool (h h' : Host) : Prop where
  pool : h'.pool = h.pool
  dealings : h'.dealings = h.dealings

theorem Host.SamePool.trans {h h₁ h' : Host} (s₁ : h.SamePool h₁) (s₂ : h₁.SamePool h') :
    h.SamePool h' :=
  ⟨s₂.pool.trans s₁.pool, s₂.dealings.trans s₁.dealings⟩

theorem Host.note_samePool (h : Host) (level : LogLevel) (message : String) :
    h.SamePool (h.note level message) := ⟨rfl, rfl⟩

structure Passes (h : Host) (a : Multiset Slot) (h' : Host) (b : Multiset Slot) : Prop where
  published : published h.dealings ⊆ published h'.dealings
  custody : ∀ rest, Custody h (a + rest) → Custody h' (b + rest)

namespace Passes

variable {h h₁ h' : Host} {a b c : Multiset Slot}

theorem of_samePool (hsame : h.SamePool h') : Passes h a h' a where
  published := by rw [hsame.dealings]
  custody rest hc := by
    obtain ⟨hsound, hwhole, hhonest, hcovered⟩ := hc
    rw [← hsame.pool] at hsound hwhole
    rw [← hsame.dealings] at hhonest hcovered
    exact ⟨hsound, hwhole, hhonest, hcovered⟩

theorem refl (h : Host) (a : Multiset Slot) : Passes h a h a := of_samePool ⟨rfl, rfl⟩

theorem trans (p₁ : Passes h a h₁ b) (p₂ : Passes h₁ b h' c) : Passes h a h' c where
  published := p₁.published.trans p₂.published
  custody rest hc := p₂.custody rest (p₁.custody rest hc)

theorem frame (p : Passes h a h' b) (c : Multiset Slot) : Passes h (a + c) h' (b + c) where
  published := p.published
  custody rest hc := by
    rw [add_assoc] at hc ⊢
    exact p.custody (c + rest) hc

end Passes

/-- Custody after one more dealing. -/
theorem Custody.deal {h h' : Host} {owned owned' : Multiset Slot} {d : Dealing}
    (hc : Custody h owned) (hsound : h'.pool.Sound) (hwhole : ∀ p ∈ h'.pool.pages, p.Whole)
    (hdealings : h'.dealings = d :: h.dealings) (hlent : ∀ s, d = .lent s → s.InPage)
    (hcovered : owned' + (published (d :: h.dealings)).val ≤ live (d :: h.dealings)) :
    Custody h' owned' where
  sound := hsound
  whole := hwhole
  honest := by
    rw [hdealings]
    exact .cons hlent (le_trans (Multiset.le_add_left _ owned') hcovered) hc.honest
  covered := by
    rw [hdealings]
    exact hcovered

namespace Host

variable {h : Host} {s : Slot}

/-- What is lent belongs to whoever asked for it. -/
theorem allocate_passes (h : Host) (origin : Address) {size : Nat} (hsize : size ≤ pageSize) :
    Passes h 0 (h.allocate origin size).2
      (match (h.allocate origin size).1 with
        | some s => {s}
        | none => 0) := by
  unfold allocate
  have hs (hsound : h.pool.Sound) := Pool.allocate_sound hsound h.memory origin size
  have hw (hsound : h.pool.Sound) (hwhole : ∀ p ∈ h.pool.pages, p.Whole) :=
    Pool.allocate_whole hsound hwhole hsize h.memory origin
  generalize h.pool.allocate h.memory origin size = result at hs hw
  obtain ⟨_ | s, pool, m⟩ := result
  · refine ⟨Finset.Subset.refl _, fun rest hc ↦ ?_⟩
    exact ⟨hs hc.sound, (hw hc.sound hc.whole).1, hc.honest, hc.covered⟩
  · refine ⟨Finset.Subset.refl _, fun rest hc ↦ ?_⟩
    obtain ⟨hwhole, hpage⟩ := hw hc.sound hc.whole
    refine hc.deal (hs hc.sound) hwhole rfl ?_ ?_
    · rintro s' ⟨⟩
      exact hpage s rfl
    · have hcovered := hc.covered
      rw [zero_add] at hcovered
      rw [add_assoc]
      exact (Multiset.cons_le_cons_iff s).mpr hcovered

theorem free_passes (h : Host) (s : Slot) : Passes h {s} (h.free s) 0 := by
  refine ⟨Finset.Subset.refl _, fun rest hc ↦ ?_⟩
  refine hc.deal (Pool.free_sound hc.sound s) ((h.pool.free_samePages s).whole hc.whole) rfl
    nofun ?_
  have hcovered := Multiset.erase_le_erase s hc.covered
  rw [add_assoc, Multiset.singleton_add, Multiset.erase_cons_head] at hcovered
  rw [zero_add]
  exact hcovered

theorem publish_again_passes (hs : s ∈ published h.dealings) (passage : Nat) :
    Passes h 0 (h.publish passage s) 0 := by
  refine ⟨published_subset _ _, fun rest hc ↦ hc.deal hc.sound hc.whole rfl nofun ?_⟩
  rw [published, Finset.insert_eq_of_mem hs]
  exact hc.covered

/-- What is published has no owner any more. -/
theorem publish_passes (h : Host) (passage : Nat) (s : Slot) :
    Passes h {s} (h.publish passage s) 0 := by
  refine ⟨published_subset _ _, fun rest hc ↦ hc.deal hc.sound hc.whole rfl nofun ?_⟩
  have hcovered := hc.covered
  rw [zero_add, published]
  -- a slot that was published before is covered as such, so its owner just goes
  by_cases hs : s ∈ published h.dealings
  · rw [Finset.insert_eq_of_mem hs]
    refine le_trans ?_ hcovered
    rw [add_assoc]
    exact Multiset.le_add_left _ _
  · rw [Finset.insert_val_of_notMem hs, Multiset.add_cons]
    rwa [add_assoc, Multiset.singleton_add] at hcovered

theorem mem_published_publish (h : Host) (passage : Nat) (s : Slot) :
    s ∈ published (h.publish passage s).dealings := Finset.mem_insert_self s _

end Host

end HotPatch
