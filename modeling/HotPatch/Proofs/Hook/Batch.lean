import HotPatch.Hook.Batch
import HotPatch.Proofs.Hook.Call
import Mathlib.Data.List.Forall2

/-!
# Batches are atomic

Attaching a batch puts all of its hooks in place or none, and detaching takes all of them out of
place or none: what was done before a failure can always be taken back at once, however the hooks
overlap. A batch of hooks that are not scripted is never stuck.
-/

namespace HotPatch

open Host List

namespace Numbered

def Idle (k : Numbered) : Prop := k.2.Idle

def Ready (k : Numbered) (r : UndoRecord) : Prop := k.2.Ready r

def InPlace (k : Numbered) (r : UndoRecord) : Prop := k.2.InPlace r

end Numbered

namespace Sweep

variable {h : Host} {m₀ : Memory} {rs ds : List UndoRecord} {rest done : List Numbered}

/-- Hooks that were just put in place can be taken out of place again. -/
theorem unwind_detach (hdone : Forall₂ Numbered.InPlace done ds)
    (hback : Rewrites h.memory (ds.map UndoRecord.inverse) m₀) :
    ∃ done' h', unwind .detach done h = (done', none, h') ∧ (∀ k ∈ done', Numbered.Idle k) ∧
      Quiet (h.withMemory m₀) h' := by
  induction done generalizing ds h with
  | nil =>
      cases hdone
      cases hback
      exact ⟨[], h, rfl, fun k hk ↦ (nomatch hk), .refl h⟩
  | cons p done ih =>
      obtain ⟨index, k⟩ := p
      cases hdone with
      | @cons _ r _ ds hk hdone =>
          cases hback with
          | cons hfit hback =>
              obtain ⟨k', h₁, heq, hready, hcalm⟩ := Hook.InPlace.detach hk hfit
              have hmemory : h₁.memory = r.inverse.onto h.memory := hcalm.memory
              rw [← hmemory] at hback
              obtain ⟨done', h₂, heq', hidle, hquiet⟩ := ih hdone hback
              refine ⟨(index, k') :: done', h₂, ?_, ?_,
                (hcalm.toQuiet.withMemory m₀).trans hquiet⟩
              · rw [Hook.detach] at heq
                simp only [unwind, heq, heq']
              · intro p hp
                rcases mem_cons.mp hp with rfl | hp
                · exact hready.toIdle
                · exact hidle p hp

/-- Hooks that were just taken out of place can be put in place again. -/
theorem unwind_attach (hdone : Forall₂ Numbered.Ready done ds) (hback : Rewrites h.memory ds m₀) :
    ∃ done' h', unwind .attach done h = (done', none, h') ∧ Forall₂ Numbered.InPlace done' ds ∧
      Calm (h.withMemory m₀) h' := by
  induction done generalizing ds h with
  | nil =>
      cases hdone
      cases hback
      exact ⟨[], h, rfl, .nil, .refl h⟩
  | cons p done ih =>
      obtain ⟨index, k⟩ := p
      cases hdone with
      | @cons _ r _ ds hk hdone =>
          cases hback with
          | cons hfit hback =>
              obtain ⟨k', h₁, heq, hplace, hcalm⟩ := Hook.Ready.attach hk hfit
              have hmemory : h₁.memory = r.onto h.memory := hcalm.memory
              rw [← hmemory] at hback
              obtain ⟨done', h₂, heq', hplaces, hcalm'⟩ := ih hdone hback
              refine ⟨(index, k') :: done', h₂, ?_, .cons hplace hplaces,
                (hcalm.withMemory m₀).trans hcalm'⟩
              rw [Hook.attach] at heq
              simp only [unwind, heq, heq']

/-- Attaching idle hooks, `done` being those in place so far, goes all the way or back to `m₀`. -/
theorem run_attach (hdone : Forall₂ Numbered.InPlace done ds) (hw : Rewrites m₀ ds.reverse h.memory)
    (hrest : ∀ k ∈ rest, Numbered.Idle k) :
    ∃ ks failure h', run .attach .detach done rest h = (⟨ks, failure, none⟩, h') ∧
      ((failure = none ∧ ∃ rs m, Forall₂ Numbered.InPlace ks rs ∧ Rewrites m₀ rs m ∧
          Quiet (h.withMemory m) h') ∨
        (failure ≠ none ∧ (∀ k ∈ ks, Numbered.Idle k) ∧ Quiet (h.withMemory m₀) h')) := by
  induction rest generalizing done ds h with
  | nil =>
      exact ⟨done.reverse, none, h, rfl, .inl ⟨rfl, ds.reverse, h.memory, rel_reverse hdone, hw,
        .refl h⟩⟩
  | cons p rest ih =>
      obtain ⟨index, k⟩ := p
      have hk : k.Idle := hrest _ (mem_cons_self ..)
      by_cases hfit : ∃ r, k.record? = some r ∧ r.Fits h.memory
      · obtain ⟨r, hrecord, hfit⟩ := hfit
        obtain ⟨k', h₁, heq, hplace, hcalm⟩ := Hook.Ready.attach ⟨hk, hrecord⟩ hfit
        have hquiet := hcalm.toQuiet
        have hmemory : h₁.memory = r.onto h.memory := hquiet.memory
        have hw' : Rewrites m₀ (r :: ds).reverse h₁.memory := by
          rw [reverse_cons, hmemory]
          exact hw.append (.single hfit)
        have hdone' : Forall₂ Numbered.InPlace ((index, k') :: done) (r :: ds) :=
          .cons hplace hdone
        obtain ⟨ks, failure, h₂, heq', hends⟩ :=
          ih hdone' hw' fun q hq ↦ hrest q (mem_cons_of_mem _ hq)
        refine ⟨ks, failure, h₂, ?_, ?_⟩
        · rw [Hook.attach] at heq
          simp only [run, heq, heq']
        · rcases hends with ⟨hnone, rs, m, hplaces, hrs, hquiet'⟩ | ⟨hsome, hidle, hquiet'⟩
          · exact .inl ⟨hnone, rs, m, hplaces, hrs, (hquiet.withMemory m).trans hquiet'⟩
          · exact .inr ⟨hsome, hidle, (hquiet.withMemory m₀).trans hquiet'⟩
      · obtain ⟨e, k', h₁, heq, hidle, -, hquiet⟩ := hk.attach_of_not_fits
          fun r hr hf ↦ hfit ⟨r, hr, hf⟩
        have hback : Rewrites h₁.memory (ds.map UndoRecord.inverse) m₀ := by
          have hu := hw.unwinds
          rw [Unwinds, reverse_reverse] at hu
          rwa [hquiet.memory]
        obtain ⟨done', h₂, heq', hidles, hquiet'⟩ := unwind_detach hdone hback
        refine ⟨done'.reverse ++ (index, k') :: rest, some ⟨index, k'.name, e⟩, h₂, ?_,
          .inr ⟨by simp, fun q hq ↦ ?_, (hquiet.withMemory m₀).trans hquiet'⟩⟩
        · rw [Hook.attach] at heq
          simp only [run, heq, heq']
        · rcases mem_append.mp hq with hq | hq
          · exact hidles q (mem_reverse.mp hq)
          · rcases mem_cons.mp hq with rfl | hq
            · exact hidle
            · exact hrest q (mem_cons_of_mem _ hq)

/-- Prepared hooks whose records can be applied one after the other are all put in place. -/
theorem run_attach_ready {m : Memory} (hrest : Forall₂ Numbered.Ready rest rs)
    (hw : Rewrites h.memory rs m) (done : List Numbered) :
    ∃ ks h', run .attach .detach done rest h = (⟨done.reverse ++ ks, none, none⟩, h') ∧
      Forall₂ Numbered.InPlace ks rs ∧ Calm (h.withMemory m) h' := by
  induction rest generalizing done rs h with
  | nil =>
      cases hrest
      cases hw
      exact ⟨[], h, by rw [run, append_nil], .nil, .refl h⟩
  | cons p rest ih =>
      obtain ⟨index, k⟩ := p
      cases hrest with
      | @cons _ r _ rs hk hrest =>
          cases hw with
          | cons hfit hw =>
              obtain ⟨k', h₁, heq, hplace, hcalm⟩ := Hook.Ready.attach hk hfit
              have hmemory : h₁.memory = r.onto h.memory := hcalm.memory
              rw [← hmemory] at hw
              obtain ⟨ks, h₂, heq', hplaces, hcalm'⟩ := ih hrest hw ((index, k') :: done)
              refine ⟨(index, k') :: ks, h₂, ?_, .cons hplace hplaces,
                (hcalm.withMemory m).trans hcalm'⟩
              rw [Hook.attach] at heq
              simp only [run, heq, heq', reverse_cons, append_assoc, singleton_append]

/-- Detaching hooks that are in place, `done` being those detached so far, goes all the way or back
to `m₀`. -/
theorem run_detach (hdone : Forall₂ Numbered.Ready done ds) (hback : Rewrites h.memory ds m₀)
    (hrest : Forall₂ Numbered.InPlace rest rs) :
    ∃ ks failure h', run .detach .attach done rest h = (⟨ks, failure, none⟩, h') ∧
      ((failure = none ∧ Forall₂ Numbered.Ready ks (ds.reverse ++ rs) ∧
          ∃ m, Rewrites h.memory (rs.map UndoRecord.inverse) m ∧ Calm (h.withMemory m) h') ∨
        (failure ≠ none ∧ (¬ ∃ m, Rewrites h.memory (rs.map UndoRecord.inverse) m) ∧
          Forall₂ Numbered.InPlace ks (ds.reverse ++ rs) ∧ Calm (h.withMemory m₀) h')) := by
  induction rest generalizing done ds rs h with
  | nil =>
      cases hrest
      rw [append_nil]
      exact ⟨done.reverse, none, h, rfl, .inl ⟨rfl, rel_reverse hdone, h.memory, .nil _, .refl h⟩⟩
  | cons p rest ih =>
      obtain ⟨index, k⟩ := p
      cases hrest with
      | @cons _ r _ rs hk hrest =>
          by_cases hfit : r.inverse.Fits h.memory
          · obtain ⟨k', h₁, heq, hready, hcalm⟩ := Hook.InPlace.detach hk hfit
            have hmemory : h₁.memory = r.inverse.onto h.memory := hcalm.memory
            have hback' : Rewrites h₁.memory (r :: ds) m₀ := by
              rw [hmemory]
              exact .cons hfit.inverse (hfit.inverse_onto.symm ▸ hback)
            have hdone' : Forall₂ Numbered.Ready ((index, k') :: done) (r :: ds) :=
              .cons hready hdone
            obtain ⟨ks, failure, h₂, heq', hends⟩ := ih hdone' hback' hrest
            rw [reverse_cons, append_assoc, singleton_append] at hends
            refine ⟨ks, failure, h₂, ?_, ?_⟩
            · rw [Hook.detach] at heq
              simp only [run, heq, heq']
            · rcases hends with ⟨hnone, hreadies, m, hrs, hcalm'⟩ | ⟨hsome, hnot, hplaces, hcalm'⟩
              · exact .inl ⟨hnone, hreadies, m, .cons hfit (hmemory ▸ hrs),
                  (hcalm.withMemory m).trans hcalm'⟩
              · rw [hmemory] at hnot
                exact .inr ⟨hsome, fun hrs ↦ hnot (Rewrites.exists_cons_iff.mp hrs).2, hplaces,
                  (hcalm.withMemory m₀).trans hcalm'⟩
          · obtain ⟨e, heq⟩ := Hook.InPlace.detach_of_not_fits hk hfit
            obtain ⟨done', h₂, heq', hplaces, hcalm⟩ := unwind_attach hdone hback
            refine ⟨done'.reverse ++ (index, k) :: rest, some ⟨index, k.name, e⟩, h₂, ?_,
              .inr ⟨by simp, fun hrs ↦ hfit (Rewrites.exists_cons_iff.mp hrs).1,
                rel_append (rel_reverse hplaces) (.cons hk hrest), hcalm⟩⟩
            rw [Hook.detach] at heq
            simp only [run, heq, heq']

end Sweep

namespace Batch

variable {h : Host} {b : Batch} {rs : List UndoRecord}

structure Idle (b : Batch) : Prop where
  detached : b.attached = false
  hooks : ∀ k ∈ b.hooks, k.Idle

structure Ready (b : Batch) (rs : List UndoRecord) : Prop where
  detached : b.attached = false
  hooks : Forall₂ Hook.Ready b.hooks rs

theorem idle_of_ready {ks : List Hook} (hks : Forall₂ Hook.Ready ks rs) : ∀ k ∈ ks, k.Idle := by
  induction hks with
  | nil =>
      intro k hk
      cases hk
  | cons hready _ ih =>
      intro k hk
      rcases mem_cons.mp hk with rfl | hk
      · exact hready.toIdle
      · exact ih k hk

theorem Ready.idle (hb : b.Ready rs) : b.Idle := ⟨hb.detached, idle_of_ready hb.hooks⟩

/-- A batch with all hooks in place, one record for each. -/
structure InPlace (b : Batch) (rs : List UndoRecord) : Prop where
  attached : b.attached = true
  hooks : Forall₂ Hook.InPlace b.hooks rs

/-! ## Numbering -/

theorem map_number (index : Nat) (ks : List Hook) : (number index ks).map Prod.snd = ks := by
  induction ks generalizing index with
  | nil => rfl
  | cons k ks ih => rw [number, map_cons, ih]

theorem getElem?_number (index : Nat) (ks : List Hook) (i : Nat) :
    (number index ks)[i]? = ks[i]?.map (index + i, ·) := by
  induction ks generalizing index i with
  | nil => rfl
  | cons k ks ih =>
      cases i with
      | zero => rfl
      | succ i =>
          rw [number, getElem?_cons_succ, getElem?_cons_succ, ih, Nat.succ_add_eq_add_succ]

/-- Among numbered hooks, each one's number is its place. -/
theorem fst_of_number {index : Nat} {ks : List Hook} {i : Nat} {p : Numbered}
    (hp : (number index ks)[i]? = some p) : p.1 = index + i ∧ ks[i]? = some p.2 := by
  rw [getElem?_number] at hp
  obtain ⟨k, hk, rfl⟩ := Option.map_eq_some_iff.mp hp
  exact ⟨rfl, hk⟩

theorem number_idle {ks : List Hook} (hks : ∀ k ∈ ks, k.Idle) (index : Nat) :
    ∀ k ∈ number index ks, Numbered.Idle k := by
  induction ks generalizing index with
  | nil =>
      intro k hk
      cases hk
  | cons k ks ih =>
      intro p hp
      rcases mem_cons.mp hp with rfl | hp
      · exact hks k (mem_cons_self ..)
      · exact ih (fun k' hk' ↦ hks k' (mem_cons_of_mem _ hk')) _ p hp

theorem number_ready {ks : List Hook} (hks : Forall₂ Hook.Ready ks rs) (index : Nat) :
    Forall₂ Numbered.Ready (number index ks) rs := by
  induction hks generalizing index with
  | nil => exact .nil
  | cons hk _ ih => exact .cons hk (ih (index + 1))

theorem number_inPlace {ks : List Hook} (hks : Forall₂ Hook.InPlace ks rs) (index : Nat) :
    Forall₂ Numbered.InPlace (number index ks) rs := by
  induction hks generalizing index with
  | nil => exact .nil
  | cons hk _ ih => exact .cons hk (ih (index + 1))

/-! ## Preparing -/

/-- Preparing puts no hook in place and writes to nothing but the pool, whether it fails or not. -/
theorem prepareFrom_intact {ks : List Hook} (hks : ∀ k ∈ ks, k.Idle) (hs : h.pool.Sound)
    (index : Nat) :
    (∀ k ∈ (prepareFrom index ks h).2.1, k.Idle) ∧ Intact h (prepareFrom index ks h).2.2 := by
  induction ks generalizing h index with
  | nil => exact ⟨hks, .refl h⟩
  | cons k ks ih =>
      obtain ⟨hidle, hintact⟩ := (hks k (mem_cons_self ..)).prepare hs
      have hrest : ∀ k' ∈ ks, k'.Idle := fun k' hk' ↦ hks k' (mem_cons_of_mem _ hk')
      unfold prepareFrom
      split
      · rename_i e k' h' heq
        rw [heq] at hidle hintact
        refine ⟨fun q hq ↦ ?_, hintact⟩
        rcases mem_cons.mp hq with rfl | hq
        · exact hidle
        · exact hrest q hq
      · rename_i k' h' heq
        rw [heq] at hidle hintact
        obtain ⟨hidles, hintact'⟩ := ih hrest (hintact.sound hs) (index + 1)
        refine ⟨fun q hq ↦ ?_, hintact.trans hintact'⟩
        rcases mem_cons.mp hq with rfl | hq
        · exact hidle
        · exact hidles q hq

theorem prepareFrom_ready {ks : List Hook} (hks : Forall₂ Hook.Ready ks rs) (index : Nat)
    (h : Host) : prepareFrom index ks h = (none, ks, h) := by
  induction hks generalizing index with
  | nil => rfl
  | cons hk _ ih => simp only [prepareFrom, hk.prepare, ih]

theorem reportMismatch_calm (e : HookError) (h : Host) : Calm h (reportMismatch e h) := by
  unfold reportMismatch
  split
  · split <;> exact calm_note h (by decide) _
  · exact .refl h

/-! ## Attaching and detaching -/

/-- Attaching puts all hooks in place, by records that are applied in order after the preparations,
or none. -/
theorem Idle.attach (hb : b.Idle) (hs : h.pool.Sound) :
    (∃ b' h' h₁ rs m, b.attach h = (.ok (), b', h') ∧ b'.InPlace rs ∧ Intact h h₁ ∧
        Rewrites h₁.memory rs m ∧ Quiet (h₁.withMemory m) h') ∨
      ∃ (f : HookFailure) (b' : Batch) (h' : Host),
        b.attach h = (.error (.attach f.index f.name f.source), b', h') ∧ b'.Idle ∧
          Intact h h' := by
  obtain ⟨hidle, hintact⟩ := prepareFrom_intact hb.hooks hs 0
  unfold Batch.attach
  rw [if_neg (by simp [hb.detached])]
  split
  · rename_i f ks h₁ heq
    rw [heq] at hidle hintact
    exact .inr ⟨f, _, _, rfl, ⟨hb.detached, hidle⟩, hintact⟩
  · rename_i ks h₁ heq
    rw [heq] at hidle hintact
    obtain ⟨swept, failure, h₂, hrun, hends⟩ := Sweep.run_attach Forall₂.nil
      (.nil h₁.memory) (number_idle hidle 0)
    rw [hrun]
    rcases hends with ⟨rfl, rs, m, hplaces, hw, hquiet⟩ | ⟨hsome, hidles, hquiet⟩
    · exact .inl ⟨_, _, h₁, rs, m, rfl, ⟨rfl, forall₂_map_left_iff.mpr hplaces⟩, hintact, hw,
        hquiet.trans (quiet_note ..)⟩
    · cases failure with
      | none => exact absurd rfl hsome
      | some f =>
          refine .inr ⟨f, _, _, rfl, ⟨hb.detached, fun k hk ↦ ?_⟩,
            hintact.trans (hquiet.trans (reportMismatch_calm ..).toQuiet).intact⟩
          obtain ⟨p, hp, rfl⟩ := mem_map.mp hk
          exact hidles p hp

/-- A batch that was just detached is attached again by the same records. -/
theorem Ready.attach {m : Memory} (hb : b.Ready rs) (hw : Rewrites h.memory rs m) :
    ∃ b' h', b.attach h = (.ok (), b', h') ∧ b'.InPlace rs ∧ Calm (h.withMemory m) h' := by
  obtain ⟨ks, h₁, hrun, hplaces, hcalm⟩ := Sweep.run_attach_ready (number_ready hb.hooks 0) hw []
  unfold Batch.attach
  rw [if_neg (by simp [hb.detached]), prepareFrom_ready hb.hooks]
  simp only [hrun, reverse_nil, nil_append]
  exact ⟨_, _, rfl, ⟨rfl, forall₂_map_left_iff.mpr hplaces⟩,
    hcalm.trans (calm_note _ (by decide) _)⟩

/-- Detaching restores the records of all hooks, the latest first, or of none. -/
theorem InPlace.detach (hb : b.InPlace rs) (h : Host) :
    (∃ b' h' m, b.detach h = (.ok (), b', h') ∧ b'.Ready rs ∧ Unwinds h.memory rs m ∧
        Calm (h.withMemory m) h') ∨
      (¬ ∃ m, Unwinds h.memory rs m) ∧
        ∃ (f : HookFailure) (b' : Batch) (h' : Host),
          b.detach h = (.error (.detach f.index f.name f.source), b', h') ∧ b'.InPlace rs ∧
            Calm h h' := by
  have hrest := rel_reverse (number_inPlace hb.hooks 0)
  obtain ⟨swept, failure, h₁, hrun, hends⟩ := Sweep.run_detach Forall₂.nil
    (.nil h.memory) hrest
  unfold Batch.detach
  rw [if_pos hb.attached, hrun]
  rw [reverse_nil, nil_append] at hends
  rcases hends with ⟨rfl, hreadies, m, hw, hcalm⟩ | ⟨hsome, hnot, hplaces, hcalm⟩
  · refine .inl ⟨_, _, m, rfl, ⟨rfl, ?_⟩, hw, hcalm.trans (calm_note _ (by decide) _)⟩
    have hback := rel_reverse hreadies
    rw [reverse_reverse] at hback
    exact forall₂_map_left_iff.mpr hback
  · cases failure with
    | none => exact absurd rfl hsome
    | some f =>
        refine .inr ⟨hnot, f, _, _, rfl, ⟨hb.attached, ?_⟩, hcalm.trans (reportMismatch_calm ..)⟩
        have hback := rel_reverse hplaces
        rw [reverse_reverse] at hback
        exact forall₂_map_left_iff.mpr hback

theorem Idle.detach (hb : b.Idle) (h : Host) : b.detach h = (.ok (), b, h) := by
  rw [Batch.detach, if_neg (by simp [hb.detached])]

theorem Idle.release (hb : b.Idle) : Quiet h (b.release h) := by
  rw [Batch.release, hb.detach]
  exact Hook.releaseAll_quiet hb.hooks

end Batch

end HotPatch
