import HotPatch.Proofs.Disjoint
import HotPatch.Proofs.Patch.Change

/-!
# Layers

Records that are in memory lie on top of what was there before. Changes that do not overlap them can
be thought of as applied beneath, and so can whatever keeps to the pool.
-/

namespace HotPatch

open Host

variable {h h' : Host} {g : Memory} {rs : List UndoRecord}

namespace Host

/-- What keeps to the pool keeps to it beneath records that are in memory. -/
theorem Intact.beneath (hi : Intact h h') (hw : Rewrites g rs h.memory)
    (havoid : ∀ r ∈ rs, r.Avoids h.pool.Covers) :
    ∃ g', Intact (h.withMemory g) (h'.withMemory g') ∧ Rewrites g' rs h'.memory := by
  have hw' : Rewrites (h.withMemory g).memory rs h.memory := hw
  obtain ⟨g', hu, hback⟩ := Intact.unwinds hw' havoid (Quiet.refl h) hi
  exact ⟨g', hback, hu.rewrites⟩

end Host

namespace Change.Applies

variable {cs : List Change}

theorem intact_right {h₁ : Host} (ha : Applies cs h h₁) (hi : Intact h₁ h') :
    Applies cs h h' := by
  have hrest := ha.append (.nil hi)
  rwa [List.append_nil] at hrest

theorem mapped (ha : Applies cs h h') {x : Address} (hx : h.memory.Mapped x) :
    h'.memory.Mapped x := by
  induction ha with
  | nil hintact => exact hintact.memory.mapped hx
  | cons hintact _ hw hquiet _ ih =>
      apply ih
      rw [hquiet.memory]
      exact hw.mapped_iff.mpr (hintact.memory.mapped hx)

theorem mapped_of_covers (ha : Applies cs h h') :
    ∀ c ∈ cs, ∀ r ∈ c.records, ∀ x, r.Covers x → h'.memory.Mapped x := by
  induction ha with
  | nil => exact List.forall_mem_nil _
  | cons hintact hc hw hquiet hrest ih =>
      refine List.forall_mem_cons.mpr ⟨fun r hr x hx ↦ ?_, ih⟩
      rw [hc.records_eq] at hr
      apply hrest.mapped
      rw [hquiet.memory]
      exact hw.mapped_iff.mpr (hw.mapped_of_covers hr hx)

/-- The pool grows by places that were not mapped. -/
theorem fresh (ha : Applies cs h h') {x : Address} (hx : h.memory.Mapped x)
    (hin : h'.pool.Covers x) : h.pool.Covers x := by
  induction ha with
  | nil hintact => exact hintact.fresh x hx hin
  | cons hintact _ hw hquiet _ ih =>
      apply hintact.fresh x hx
      apply (hquiet.covers x).mp
      refine ih ?_ hin
      rw [hquiet.memory]
      exact hw.mapped_iff.mpr (hintact.memory.mapped hx)

theorem avoids (ha : Applies cs h h') {r : UndoRecord} (havoid : r.Avoids h.pool.Covers)
    (hmapped : ∀ x, r.Covers x → h.memory.Mapped x) : r.Avoids h'.pool.Covers :=
  fun x hx hin ↦ havoid x hx (ha.fresh (hmapped x hx) hin)

/-- Changes apply beneath records that they do not overlap. -/
theorem beneath (ha : Applies cs h h') (hw : Rewrites g rs h.memory)
    (havoid : ∀ r ∈ rs, r.Avoids h'.pool.Covers)
    (hd : ∀ r ∈ rs, ∀ c ∈ cs, ∀ q ∈ c.records, r.Disjoint q) :
    ∃ g', Applies cs (h.withMemory g) (h'.withMemory g') ∧ Rewrites g' rs h'.memory := by
  induction ha generalizing g with
  | nil hintact =>
      have havoid' : ∀ r ∈ rs, r.Avoids _ := fun r hr x hx hin ↦
        havoid r hr x hx (hintact.covers x hin)
      obtain ⟨g', hintact', hw'⟩ := hintact.beneath hw havoid'
      exact ⟨g', .nil hintact', hw'⟩
  | @cons c cs qs m h h₁ h₂ h' hintact hc hqs hquiet hrest ih =>
      have hin (x : Address) (hx : h₁.pool.Covers x) : h'.pool.Covers x :=
        hrest.covers ((hquiet.covers x).mpr hx)
      have havoid' : ∀ r ∈ rs, r.Avoids h.pool.Covers := fun r hr x hx hx' ↦
        havoid r hr x hx (hin x (hintact.covers x hx'))
      obtain ⟨g₁, hintact₁, hw₁⟩ := hintact.beneath hw havoid'
      -- the records of the change go beneath the others
      have hdisjoint : ∀ r ∈ rs, ∀ q ∈ qs, r.Disjoint q := fun r hr q hq ↦
        hd r hr c List.mem_cons_self q (hc.records_eq.symm ▸ hq)
      obtain ⟨g₂, hqs', hw₂⟩ := hw₁.commute hqs hdisjoint
      have hmemory : h₂.memory = m := hquiet.memory
      rw [← hmemory] at hw₂
      obtain ⟨g', ha', hw'⟩ := ih hw₂ havoid fun r hr d hd' ↦ hd r hr d (List.mem_cons_of_mem c hd')
      have hquiet' : Quiet ((h₁.withMemory g₁).withMemory g₂) (h₂.withMemory g₂) :=
        hquiet.withMemory g₂
      exact ⟨g', .cons hintact₁ hc hqs' hquiet' ha', hw'⟩

end Change.Applies

end HotPatch
