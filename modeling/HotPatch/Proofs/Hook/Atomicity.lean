import HotPatch.Proofs.Hook.Outcome

/-!
# All or nothing in memory

Batches of hooks that write for themselves are attached and detached as a whole, and memory shows
it: what a failed batch wrote is gone again, and a batch that is attached and then detached leaves
no trace outside the pool.
-/

namespace HotPatch

open Host Hook List Trampoline

/-- A hook that is idle or in place is there to be called again. -/
theorem Hook.allAttached_inPlace {ks : List Hook} {rs : List UndoRecord}
    (hks : Forall₂ Hook.InPlace ks rs) : AllAttached ks ∧ ∀ k ∈ ks, k.Real := by
  induction hks with
  | nil => exact ⟨nofun, nofun⟩
  | cons hk _ ih =>
      exact ⟨forall_mem_cons.mpr ⟨hk.attached, ih.1⟩, forall_mem_cons.mpr ⟨hk.real, ih.2⟩⟩

theorem Hook.exists_inPlace {ks : List Hook} (hreal : ∀ k ∈ ks, k.Real) (hks : AllAttached ks) :
    ∃ rs, Forall₂ Hook.InPlace ks rs := by
  induction ks with
  | nil => exact ⟨[], .nil⟩
  | cons k ks ih =>
      obtain ⟨hk, hreal⟩ := forall_mem_cons.mp hreal
      obtain ⟨hattached, hks⟩ := forall_mem_cons.mp hks
      obtain ⟨rs, hrs⟩ := ih hreal hks
      rcases hk.idle_or_inPlace with hidle | ⟨r, hplace⟩
      · rw [hidle.detached] at hattached
        cases hattached
      · exact ⟨r :: rs, .cons hplace hrs⟩

namespace Batch

variable {b : Batch} {h : Host} {rs : List UndoRecord}

def Real (b : Batch) : Prop := ∀ k ∈ b.hooks, k.Real

theorem Off.idle (hb : b.Off) (hreal : b.Real) : b.Idle :=
  ⟨hb.detached, fun k hk ↦ ⟨hreal k hk, hb.hooks k hk⟩⟩

theorem On.inPlace (hb : b.On) (hreal : b.Real) : ∃ rs, b.InPlace rs := by
  obtain ⟨rs, hrs⟩ := exists_inPlace hreal hb.hooks
  exact ⟨rs, hb.attached, hrs⟩

theorem Idle.off (hb : b.Idle) : b.Off ∧ b.Real :=
  ⟨⟨hb.detached, fun k hk ↦ (hb.hooks k hk).detached⟩, fun k hk ↦ (hb.hooks k hk).real⟩

theorem InPlace.on (hb : b.InPlace rs) : b.On ∧ b.Real :=
  ⟨⟨hb.attached, (allAttached_inPlace hb.hooks).1⟩, (allAttached_inPlace hb.hooks).2⟩

/-- Detaching from the memory that attaching led to leads back. -/
theorem InPlace.detach_of_rewrites {m : Memory} (hb : b.InPlace rs)
    (hw : Rewrites m rs h.memory) :
    ∃ b' h', b.detach h = (.ok (), b', h') ∧ b'.Ready rs ∧ Calm (h.withMemory m) h' := by
  rcases hb.detach h with ⟨b', h', m', heq, hready, hu, hcalm⟩ | ⟨hnot, -⟩
  · rw [hu.unique hw.unwinds] at hcalm
    exact ⟨b', h', heq, hready, hcalm⟩
  · exact absurd ⟨m, hw.unwinds⟩ hnot

/-- Attaching detached hooks attaches all of them, or none and changes nothing that was mapped
outside the pool; after a success detaching restores that too. Detaching attached hooks, whatever
has become of the host, detaches all of them, or none and changes nothing. -/
theorem atomic_of_real (hreal : b.Real) :
    (b.Off → ∀ h : Host, h.pool.Reached → ∃ r b' h', b.attach h = (r, b', h') ∧ b'.Real ∧
      b'.names = b.names ∧
        (r = .ok () ∧ b'.On ∧ (∃ b'' h'', b'.detach h' = (.ok (), b'', h'') ∧ b''.Off ∧
            h.memory.SameOff h.pool.Covers h''.memory) ∨
          (∃ i name e, r = .error (.attach i name e)) ∧ b'.Off ∧
            h.memory.SameOff h.pool.Covers h'.memory)) ∧
      (b.On → ∀ h : Host, ∃ r b' h', b.detach h = (r, b', h') ∧ b'.Real ∧ b'.names = b.names ∧
        (r = .ok () ∧ b'.Off ∨
          (∃ i name e, r = .error (.detach i name e)) ∧ b'.On ∧ h'.memory = h.memory)) := by
  constructor
  · intro hoff h hpool
    have hnames := names_attach hoff.detached h
    rcases (hoff.idle hreal).attach hpool.sound with
      ⟨b', h', h₁, rs, m, heq, hplace, hintact, hw, hquiet⟩ | ⟨f, b', h', heq, hidle, hintact⟩
    · rw [heq] at hnames
      have hback : Rewrites h₁.memory rs h'.memory := hquiet.memory ▸ hw
      obtain ⟨b'', h'', heq', hready, hcalm⟩ := hplace.detach_of_rewrites hback
      refine ⟨_, b', h', heq, hplace.on.2, hnames,
        .inl ⟨rfl, hplace.on.1, b'', h'', heq', hready.idle.off.1, ?_⟩⟩
      rw [hcalm.memory, memory_withMemory]
      exact hintact.memory
    · rw [heq] at hnames
      exact ⟨_, b', h', heq, hidle.off.2, hnames,
        .inr ⟨⟨_, _, _, rfl⟩, hidle.off.1, hintact.memory⟩⟩
  · intro hon h
    have hnames := names_detach hon.attached h
    obtain ⟨rs, hplace⟩ := hon.inPlace hreal
    rcases hplace.detach h with
      ⟨b', h', m, heq, hready, -⟩ | ⟨-, f, b', h', heq, hplace', hcalm⟩
    · rw [heq] at hnames
      exact ⟨_, b', h', heq, hready.idle.off.2, hnames, .inl ⟨rfl, hready.idle.off.1⟩⟩
    · rw [heq] at hnames
      exact ⟨_, b', h', heq, hplace'.on.2, hnames,
        .inr ⟨⟨_, _, _, rfl⟩, hplace'.on.1, hcalm.memory⟩⟩

def overlapping : Batch :=
  .ofHooks [.slot ⟨"first", 0, 0x1111111111111111, 0, .fresh⟩,
    .slot ⟨"second", 4, 0x2222222222222222, 1, .fresh⟩]

def swapped : Batch :=
  ⟨[.slot ⟨"first", 0, 0x1111111111111111, 0,
    .active ⟨0, littleEndian 8 0, littleEndian 8 0x1111111111111111, rfl⟩⟩], true⟩

/-- The second pointer cannot be swapped after the first; and a pointer that the host has taken back
itself cannot be restored. -/
theorem atomic_of_real_overlapping :
    (∃ i name e b' h', overlapping.attach .onePage = (.error (.attach i name e), b', h') ∧ b'.Off ∧
        onePage.memory.SameOff onePage.pool.Covers h'.memory) ∧
      ∃ i name e b' h', swapped.detach .onePage = (.error (.detach i name e), b', h') ∧ b'.On ∧
        h'.memory = onePage.memory := by
  have hreal : overlapping.Real ∧ swapped.Real := by
    constructor
    · exact forall_mem_cons.mpr ⟨trivial, forall_mem_singleton.mpr trivial⟩
    · exact forall_mem_singleton.mpr trivial
  have hoff : overlapping.Off := by
    refine ⟨rfl, ?_⟩
    exact forall_mem_cons.mpr ⟨rfl, forall_mem_singleton.mpr rfl⟩
  have hon : swapped.On := ⟨rfl, forall_mem_singleton.mpr rfl⟩
  constructor
  · have hfails : (overlapping.attach .onePage).1.toBool = false := by decide +kernel
    obtain ⟨r, b', h', heq, -, -, hends⟩ := (atomic_of_real hreal.1).1 hoff .onePage .empty
    rw [heq] at hfails
    rcases hends with ⟨rfl, -⟩ | ⟨⟨i, name, e, rfl⟩, hends⟩
    · cases hfails
    · exact ⟨i, name, e, b', h', heq, hends⟩
  · have hfails : (swapped.detach .onePage).1.toBool = false := by decide +kernel
    obtain ⟨r, b', h', heq, -, -, hends⟩ := (atomic_of_real hreal.2).2 hon .onePage
    rw [heq] at hfails
    rcases hends with ⟨rfl, -⟩ | ⟨⟨i, name, e, rfl⟩, hends⟩
    · cases hfails
    · exact ⟨i, name, e, b', h', heq, hends⟩

end Batch

end HotPatch
