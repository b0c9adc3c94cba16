import HotPatch.Proofs.Trampoline.Pool
import HotPatch.Proofs.UndoRecord

/-!
# What stays as it was

The engine gets memory of its own from the pool, so after an undoing not all of memory is as it was
before: what was mapped then is, except inside the pool. Records that were applied outside the pool
can be restored in any such memory.
-/

namespace HotPatch

open Trampoline

structure Memory.SameOff (away : Address → Prop) (m m' : Memory) : Prop where
  page : ∀ n, (m.page n).isSome → m'.page n = m.page n
  byte : ∀ x, m.Mapped x → ¬ away x → m'.byte x = m.byte x

namespace Memory.SameOff

variable {away : Address → Prop} {m m₁ m₂ : Memory}

theorem refl (m : Memory) : SameOff away m m := ⟨fun _ _ ↦ rfl, fun _ _ _ ↦ rfl⟩

theorem mapped (hs : SameOff away m₁ m₂) {x : Address} (hx : m₁.Mapped x) : m₂.Mapped x := by
  unfold Mapped at *
  rw [hs.page _ hx]
  exact hx

theorem map {n : Nat} (hn : m.page n = none) (q : Protection) :
    SameOff away m (m.map n 1 q) where
  page k hk := by
    have hne : k ≠ n := by
      rintro rfl
      rw [hn] at hk
      cases hk
    exact page_map_of_ne hne
  byte := by
    intro (x : Nat) hx _
    have hne : x / pageSize ≠ n := by
      intro h
      rw [Mapped, h, hn] at hx
      cases hx
    exact if_neg fun hin ↦ hne (Pool.div_pageSize_eq_iff.mpr hin)

end Memory.SameOff

/-! ## Restoring elsewhere -/

namespace UndoRecord

variable {away : Address → Prop} {r : UndoRecord} {m₁ m₃ : Memory}

def Avoids (r : UndoRecord) (away : Address → Prop) : Prop := ∀ x, r.Covers x → ¬ away x

theorem Fits.mapped {x : Nat} (hfit : r.Fits m₁) (hx : r.Covers x) : m₁.Mapped x :=
  Memory.mapped_of_readable (hfit.admits.readable x hx.1 (r.length_eq ▸ hx.2))

/-- A record that was applied can be restored wherever its bytes are still in place. -/
theorem Fits.inverse_of_sameOff (hfit : r.Fits m₁) (havoid : r.Avoids away)
    (hs : Memory.SameOff away (r.onto m₁) m₃) : r.inverse.Fits m₃ := by
  have hback := hfit.inverse
  refine ⟨hback.admits.of_page_eq fun x hx hlt ↦ hs.page _ (hfit.mapped ⟨hx, hlt⟩), ?_⟩
  calc m₃.bytes r.address r.after.length
    _ = (r.onto m₁).bytes r.address r.after.length :=
      Memory.bytes_congr fun x hx hlt ↦ hs.byte x (hfit.mapped ⟨hx, hlt⟩) (havoid x ⟨hx, hlt⟩)
    _ = r.after := hback.bytes_eq

/-- Restoring a record leads to where things were before it was applied. -/
theorem Fits.sameOff_inverse_onto (hfit : r.Fits m₁)
    (hs : Memory.SameOff away (r.onto m₁) m₃) :
    Memory.SameOff away m₁ (r.inverse.onto m₃) where
  page := hs.page
  byte := by
    intro (x : Nat) hx haway
    have hback : (r.inverse.onto (r.onto m₁)).byte x = m₁.byte x := by rw [hfit.inverse_onto]
    by_cases hmem : r.inverse.Covers x
    · rw [← hback, byte_onto_of_covers _ hmem, byte_onto_of_covers _ hmem]
    · calc (r.inverse.onto m₃).byte x
        _ = m₃.byte x := byte_onto_of_not_covers _ hmem
        _ = (r.onto m₁).byte x := hs.byte x hx haway
        _ = m₁.byte x := by
          rw [← hback, byte_onto_of_not_covers _ hmem]

end UndoRecord

/-- Records applied in order can be restored in reverse order wherever their bytes are still in
place, and that leads to where things were before them. -/
theorem Rewrites.unwinds_of_sameOff {away : Address → Prop} {m₁ m₂ m₃ : Memory}
    {rs : List UndoRecord} (hw : Rewrites m₁ rs m₂) (havoid : ∀ r ∈ rs, r.Avoids away)
    (hs : Memory.SameOff away m₂ m₃) :
    ∃ m₄, Unwinds m₃ rs m₄ ∧ Memory.SameOff away m₁ m₄ := by
  induction hw with
  | nil m => exact ⟨m₃, .nil m₃, hs⟩
  | @cons m m' r rs hfit _ ih =>
      obtain ⟨m₄, hu, hs'⟩ := ih (fun q hq ↦ havoid q (List.mem_cons_of_mem r hq)) hs
      have hfit' := hfit.inverse_of_sameOff (havoid r (List.mem_cons_self ..)) hs'
      refine ⟨r.inverse.onto m₄, ?_, hfit.sameOff_inverse_onto hs'⟩
      rw [← List.singleton_append, Unwinds.append_iff]
      exact ⟨m₄, hu, .single hfit'⟩

namespace Host

variable {h h₁ h₂ h₃ : Host} {m : Memory} {rs : List UndoRecord} {x : Address}

theorem avoids_of_empty (hpool : h.pool = .empty) (r : UndoRecord) : r.Avoids h.pool.Covers := by
  intro x _
  rw [hpool]
  exact Trampoline.Pool.not_covers_empty x

/-! ## Quiet operations -/

structure Quiet (h h' : Host) : Prop where
  memory : h'.memory = h.memory
  covers : ∀ x, h'.pool.Covers x ↔ h.pool.Covers x
  sound : h.pool.Sound → h'.pool.Sound
  ownWrites : h'.ownWrites = h.ownWrites

theorem Quiet.refl (h : Host) : Quiet h h := ⟨rfl, fun _ ↦ Iff.rfl, id, rfl⟩

theorem Quiet.trans (q₁ : Quiet h₁ h₂) (q₂ : Quiet h₂ h₃) : Quiet h₁ h₃ where
  memory := q₂.memory.trans q₁.memory
  covers x := (q₂.covers x).trans (q₁.covers x)
  sound hs := q₂.sound (q₁.sound hs)
  ownWrites := q₂.ownWrites.trans q₁.ownWrites

theorem Quiet.of_eq (hmemory : h₂.memory = h₁.memory) (hpool : h₂.pool = h₁.pool)
    (hown : h₂.ownWrites = h₁.ownWrites) : Quiet h₁ h₂ := by
  refine ⟨hmemory, fun x ↦ ?_, fun hs ↦ ?_, hown⟩
  · rw [hpool]
  · rwa [hpool]

theorem Quiet.withMemory (q : Quiet h₁ h₂) (m : Memory) :
    Quiet (h₁.withMemory m) (h₂.withMemory m) :=
  ⟨rfl, q.covers, q.sound, q.ownWrites⟩

theorem quiet_assertEven (h : Host) (expected new : List UInt8) :
    Quiet h (h.assertEven expected new) := by
  unfold assertEven
  split
  · exact .refl h
  · exact .of_eq rfl rfl rfl

theorem quiet_note (h : Host) (level : LogLevel) (message : String) :
    Quiet h (h.note level message) := .of_eq rfl rfl rfl

def Told (h h' : Host) : Prop := ∃ log events, h' = { h with log, events }

namespace Told

theorem refl (h : Host) : Told h h := ⟨h.log, h.events, rfl⟩

theorem trans (t₁ : Told h₁ h₂) (t₂ : Told h₂ h₃) : Told h₁ h₃ := by
  obtain ⟨_, _, rfl⟩ := t₁
  obtain ⟨log, events, rfl⟩ := t₂
  exact ⟨log, events, rfl⟩

theorem note (h : Host) (level : LogLevel) (message : String) : Told h (h.note level message) :=
  ⟨_, _, rfl⟩

theorem quiet (t : Told h₁ h₂) : Quiet h₁ h₂ := by
  obtain ⟨_, _, rfl⟩ := t
  exact .of_eq rfl rfl rfl

end Told

theorem quiet_free (h : Host) (slot : Slot) : Quiet h (h.free slot) :=
  ⟨rfl, h.pool.free_covers slot, fun hs ↦ Pool.free_sound hs slot, rfl⟩

def errors (h : Host) : List LogRecord := h.log.filter (·.level = .error)

/-- A quiet operation that reports no failure. -/
structure Calm (h h' : Host) : Prop extends Quiet h h' where
  errors : h'.errors = h.errors

theorem Calm.refl (h : Host) : Calm h h := ⟨.refl h, rfl⟩

theorem Calm.trans (c₁ : Calm h₁ h₂) (c₂ : Calm h₂ h₃) : Calm h₁ h₃ :=
  ⟨c₁.toQuiet.trans c₂.toQuiet, c₂.errors.trans c₁.errors⟩

theorem Calm.of_eq (hmemory : h₂.memory = h₁.memory) (hpool : h₂.pool = h₁.pool)
    (hown : h₂.ownWrites = h₁.ownWrites) (hlog : h₂.log = h₁.log) : Calm h₁ h₂ :=
  ⟨.of_eq hmemory hpool hown, by rw [Host.errors, hlog, Host.errors]⟩

theorem Calm.withMemory (c : Calm h₁ h₂) (m : Memory) : Calm (h₁.withMemory m) (h₂.withMemory m) :=
  ⟨c.toQuiet.withMemory m, c.errors⟩

theorem calm_note (h : Host) {level : LogLevel} (hlevel : level ≠ .error) (message : String) :
    Calm h (h.note level message) :=
  ⟨quiet_note h level message, List.filter_cons_of_neg (by simpa using hlevel)⟩

/-! ## Operations that keep to the pool -/

/-- What was mapped is as it was, except inside the pool, the pool has grown at most by places that
were not mapped, and nothing was written by the host. -/
structure Intact (h h' : Host) : Prop where
  memory : h.memory.SameOff h.pool.Covers h'.memory
  covers : ∀ x, h.pool.Covers x → h'.pool.Covers x
  fresh : ∀ x, h.memory.Mapped x → h'.pool.Covers x → h.pool.Covers x
  added : ∀ x, h'.memory.Mapped x → h.memory.Mapped x ∨ h'.pool.Covers x
  sound : h.pool.Sound → h'.pool.Sound
  ownWrites : h'.ownWrites = h.ownWrites

theorem Quiet.intact (q : Quiet h₁ h₂) : Intact h₁ h₂ where
  memory := q.memory ▸ .refl _
  covers x := (q.covers x).mpr
  fresh x _ := (q.covers x).mp
  added _ hx := .inl (q.memory ▸ hx)
  sound := q.sound
  ownWrites := q.ownWrites

theorem Intact.refl (h : Host) : Intact h h := (Quiet.refl h).intact

theorem Intact.trans (i₁ : Intact h₁ h₂) (i₂ : Intact h₂ h₃) : Intact h₁ h₃ where
  memory :=
    { page := fun n hn ↦ by
        have hmid := i₁.memory.page n hn
        rw [← hmid] at hn ⊢
        exact i₂.memory.page n hn
      byte := fun x hx hout ↦ by
        have hx' := i₁.memory.mapped hx
        rw [i₂.memory.byte x hx' fun hin ↦ hout (i₁.fresh x hx hin), i₁.memory.byte x hx hout] }
  covers x hx := i₂.covers x (i₁.covers x hx)
  fresh x hx hin := i₁.fresh x hx (i₂.fresh x (i₁.memory.mapped hx) hin)
  added x hx := by
    rcases i₂.added x hx with hx | hin
    · exact (i₁.added x hx).imp_right (i₂.covers x)
    · exact .inr hin
  sound hs := i₂.sound (i₁.sound hs)
  ownWrites := i₂.ownWrites.trans i₁.ownWrites

/-- Records that were applied outside the pool can still be restored after operations that keep to
the pool, and that leads to where things were before. -/
theorem Intact.unwinds (hw : Rewrites h₁.memory rs m)
    (havoid : ∀ r ∈ rs, r.Avoids h₁.pool.Covers) (q : Quiet (h₁.withMemory m) h₂)
    (i : Intact h₂ h₃) :
    ∃ m', Unwinds h₃.memory rs m' ∧ Intact h₁ (h₃.withMemory m') := by
  have i' : Intact (h₁.withMemory m) h₃ := q.intact.trans i
  obtain ⟨m', hu, hs⟩ := hw.unwinds_of_sameOff havoid i'.memory
  refine ⟨m', hu, hs, i'.covers, fun x hx ↦ i'.fresh x ?_, fun x hx ↦ ?_, i'.sound, i'.ownWrites⟩
  · exact hw.mapped_iff.mpr hx
  · exact (i'.added x (hu.mapped_iff.mp hx)).imp_left hw.mapped_iff.mp

structure SameOutside (h h' : Host) : Prop where
  fresh : ∀ x, h.memory.Mapped x → h'.pool.Covers x → h.pool.Covers x
  page : ∀ x, ¬ h'.pool.Covers x → h'.memory.page (x / pageSize) = h.memory.page (x / pageSize)
  byte : ∀ x, ¬ h'.pool.Covers x → h.memory.Mapped x → h'.memory.byte x = h.memory.byte x

theorem Intact.sameOutside (i : Intact h₁ h₂) : SameOutside h₁ h₂ where
  fresh := i.fresh
  page x hout := by
    by_cases hx : h₁.memory.Mapped x
    · exact i.memory.page _ hx
    · have hx' : ¬ h₂.memory.Mapped x := fun hx' ↦ (i.added x hx').elim hx hout
      rw [Memory.Mapped, Option.not_isSome_iff_eq_none] at hx hx'
      rw [hx, hx']
  byte x hout hx := i.memory.byte x hx fun hin ↦ hout (i.covers x hin)

/-! ## Executable memory -/

theorem intact_fill {slot : Slot} {bs : List UInt8} (hlen : bs.length ≤ slot.length)
    (hin : ∀ x, slot.address ≤ x → x < slot.address + slot.length → h.pool.Covers x) :
    Intact h (h.fill slot bs) where
  memory :=
    { page := fun _ _ ↦ rfl
      byte := fun x _ hout ↦ Memory.byte_store_of_not_mem fun hmem ↦
        hout (hin x hmem.1 (Nat.lt_of_lt_of_le hmem.2 (Nat.add_le_add_left hlen _))) }
  covers _ := id
  fresh _ _ := id
  added _ hx := .inl hx
  sound := id
  ownWrites := rfl

/-- An allocation of at most a page keeps to the pool. -/
theorem allocate_intact (hs : h.pool.Sound) {size : Nat} (hsize : size ≤ pageSize)
    (origin : Address) :
    Intact h (h.allocate origin size).2 ∧ ∀ slot, (h.allocate origin size).1 = some slot →
      slot.length = size ∧ ∀ x, slot.address ≤ x → x < slot.address + slot.length →
        (h.allocate origin size).2.pool.Covers x := by
  unfold allocate
  rcases Pool.allocate_cases hs hsize h.memory origin with
    heq | ⟨slot, pool, m, heq, hlength, hsound, hinside, hgrown⟩
  · rw [heq]
    exact ⟨.refl h, by simp⟩
  · rw [heq]
    refine ⟨?_, fun slot' hslot ↦ ?_⟩
    · rcases hgrown with ⟨rfl, hcovers⟩ | ⟨n, hn, rfl, hcovers⟩
      · exact ⟨.refl _, fun x ↦ (hcovers x).mpr, fun x _ ↦ (hcovers x).mp, fun _ ↦ .inl,
          fun _ ↦ hsound, rfl⟩
      · refine ⟨.map hn .all, fun x hx ↦ (hcovers x).mpr (.inl hx), fun x hx hin ↦ ?_,
          fun x hx ↦ ?_, fun _ ↦ hsound, rfl⟩
        · rcases (hcovers x).mp hin with hold | hnew
          · exact hold
          · rw [Memory.Mapped, hnew, hn] at hx
            cases hx
        · by_cases hnew : x / pageSize = n
          · exact .inr ((hcovers x).mpr (.inr hnew))
          · rw [memory_note, Memory.Mapped, Memory.page_map_of_ne hnew] at hx
            exact .inl hx
    · cases hslot
      exact ⟨hlength, hlength ▸ hinside⟩

end Host

end HotPatch
