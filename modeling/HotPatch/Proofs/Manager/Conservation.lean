import HotPatch.Proofs.Ledger.Patch
import HotPatch.Proofs.Manager.Registry

/-!
# Nothing is lost

A manager may be asked for anything in any order, and its patches may overlap: whenever nothing is
recorded any more, every byte outside the pool is what it was at the start.
-/

namespace HotPatch

open Host

variable {x : Address} {v : UInt8} {own : Bool} {total d : Int} {h : Host}

def Host.protect (h : Host) (page : Nat) (q : Protection) : Host :=
  match h.memory.protect page q with
  | some m => h.withMemory m
  | none => h

theorem Host.InBalance.protect (hb : InBalance x v own total d h) (page : Nat) (q : Protection) :
    InBalance x v own total d (h.protect page q) := by
  unfold Host.protect
  split
  · rename_i m heq
    unfold Memory.protect at heq
    split at heq
    · split at heq
      · cases heq
      · cases heq
        refine ⟨?_, hb.outside, hb.sound, hb.balance⟩
        rw [memory_withMemory, Memory.Mapped, Memory.page_setPage]
        split
        · rfl
        · exact hb.mapped
    · cases heq
  · exact hb

structure Registry.Plain (r : Registry) : Prop where
  install : ∀ e ∈ r, ∀ n, (e.body.install n).Plain
  update : ∀ e ∈ r, ∀ n, (e.body.update n).Plain
  settings : ∀ e ∈ r, Setting.Unwritten e.body.settings

namespace Manager

variable {m : Manager} {ps : List Patch} {s : Site}

def owed (x : Address) (v : UInt8) (ps : List Patch) : Int := (ps.map (Patch.owed x v)).sum

@[simp] theorem owed_cons (p : Patch) (ps : List Patch) :
    owed x v (p :: ps) = p.owed x v + owed x v ps := by
  simp [owed]

@[simp] theorem owed_append (ps qs : List Patch) :
    owed x v (ps ++ qs) = owed x v ps + owed x v qs := by
  simp [owed]

structure Sound (m : Manager) : Prop where
  registry : ∀ r, m.registry = some r → r.Plain
  patches : ∀ p ∈ m.patches, p.Sound

/-! ## Acting on patches -/

theorem forall_mem_cons {P : Patch → Prop} {p : Patch} (hp : P p) (hps : ∀ q ∈ ps, P q) :
    ∀ q ∈ p :: ps, P q := by
  intro q hq
  rcases List.mem_cons.mp hq with rfl | hq
  · exact hp
  · exact hps q hq

theorem actFirst_balanced {α : Type} {f : Patch → Site → α × Patch × Site} (hf : Patch.Settles f)
    (name : String) (hps : ∀ p ∈ ps, p.Sound)
    (hb : InBalance x v false total (d + owed x v ps) s.host) :
    ∃ r ps' s', actFirst name f ps s = (r, ps', s') ∧ (∀ p ∈ ps', p.Sound) ∧
      InBalance x v false total (d + owed x v ps') s'.host := by
  induction ps generalizing d with
  | nil => exact ⟨none, [], s, rfl, hps, hb⟩
  | cons p ps ih =>
      have hp : p.Sound := hps p (List.mem_cons_self ..)
      have hrest : ∀ q ∈ ps, q.Sound := fun q hq ↦ hps q (List.mem_cons_of_mem p hq)
      rw [actFirst]
      split
      · have hframe : InBalance x v false total (d + owed x v ps + p.owed x v) s.host :=
          hb.congr (by rw [owed_cons]; omega)
        have hsettled := hf hp hframe
        rcases heq : f p s with ⟨r, p', s'⟩
        simp only [heq] at hsettled
        exact ⟨some r, p' :: ps, s', rfl, forall_mem_cons (hsettled.sound hp) hrest,
          hsettled.balance.congr (by rw [owed_cons]; omega)⟩
      · have hframe : InBalance x v false total (d + p.owed x v + owed x v ps) s.host :=
          hb.congr (by rw [owed_cons]; omega)
        obtain ⟨r, ps', s', heq, hps', hb'⟩ := ih hrest hframe
        exact ⟨r, p :: ps', s', by simp only [heq], forall_mem_cons hp hps',
          hb'.congr (by rw [owed_cons]; omega)⟩

def Settles (f : Manager → Host → Manager × Host) : Prop :=
  ∀ {x : Address} {v : UInt8} {total : Int} {m : Manager} {h : Host}, m.Sound →
    InBalance x v false total (owed x v m.patches) h →
    (f m h).1.Sound ∧ InBalance x v false total (owed x v (f m h).1.patches) (f m h).2

theorem act_balanced {α : Type} {f : Patch → Site → α × Patch × Site} (hf : Patch.Settles f)
    (name : String) (hm : m.Sound) (hb : InBalance x v false total (owed x v m.patches) h) :
    (m.act name f h).2.1.Sound ∧
      InBalance x v false total (owed x v (m.act name f h).2.1.patches) (m.act name f h).2.2 := by
  obtain ⟨r, ps, s, heq, hps, hb'⟩ := actFirst_balanced (d := 0) (s := ⟨m.resolver, h⟩) hf name
    hm.patches (hb.congr (by omega))
  rw [act, heq]
  exact ⟨⟨hm.registry, hps⟩, hb'.congr (by simp only; omega)⟩

theorem settles_enable (name : String) : Settles fun m h ↦ (m.enable name h).2 := by
  intro x v total m h hm hb
  have hf : Patch.Settles fun p s ↦ p.touch.install s := by
    intro x v total d p s hp hb
    have htouched : p.touch.Sound := ⟨hp.install, hp.update, hp.changes⟩
    have hsettled := Patch.settles_install htouched hb
    exact ⟨hsettled.body, hsettled.changes, hsettled.balance⟩
  have hact := act_balanced hf name hm hb
  simp only [enable]
  split
  · rename_i heq
    rwa [heq] at hact
  · rename_i heq
    rw [heq] at hact
    exact ⟨hact.1, hact.2.quiet (quiet_note ..)⟩

theorem settles_disable (name : String) : Settles fun m h ↦ (m.disable name h).2 := by
  intro x v total m h hm hb
  have hf : Patch.Settles fun p s ↦ p.touch.uninstall s := by
    intro x v total d p s hp hb
    have htouched : p.touch.Sound := ⟨hp.install, hp.update, hp.changes⟩
    have hsettled := Patch.settles_uninstall htouched hb
    exact ⟨hsettled.body, hsettled.changes, hsettled.balance⟩
  have hact := act_balanced hf name hm hb
  simp only [disable]
  split
  · rename_i heq
    rwa [heq] at hact
  · rename_i heq
    rw [heq] at hact
    exact ⟨hact.1, hact.2.quiet (quiet_note ..)⟩

theorem settles_setSetting (patch setting : String) (w : Setting.Value) :
    Settles fun m h ↦ (m.setSetting patch setting w h).2 := by
  intro x v total m h hm hb
  have hact := act_balanced (Patch.settles_setSetting setting w) patch hm hb
  simp only [setSetting]
  split
  · rename_i heq
    rwa [heq] at hact
  · rename_i heq
    rwa [heq] at hact

/-! ## Acting on all patches -/

theorem updateEach_balanced (hps : ∀ p ∈ ps, p.Sound)
    (hb : InBalance x v false total (d + owed x v ps) s.host) :
    ∃ ps' s', updateEach ps s = (ps', s') ∧ (∀ p ∈ ps', p.Sound) ∧
      InBalance x v false total (d + owed x v ps') s'.host := by
  induction ps generalizing d s with
  | nil => exact ⟨[], s, rfl, hps, hb⟩
  | cons p ps ih =>
      have hframe : InBalance x v false total (d + owed x v ps + p.owed x v) s.host :=
        hb.congr (by rw [owed_cons]; omega)
      have hp : p.Sound := hps p (List.mem_cons_self ..)
      have hsettled := Patch.update_plain hp hframe
      rcases heq : p.update s with ⟨p', s₁⟩
      simp only [heq] at hsettled
      have hframe' : InBalance x v false total (d + p'.owed x v + owed x v ps) s₁.host :=
        hsettled.balance.congr (by omega)
      obtain ⟨ps', s₂, hrest, hps', hb₂⟩ :=
        ih (fun q hq ↦ hps q (List.mem_cons_of_mem p hq)) hframe'
      refine ⟨p' :: ps', s₂, by rw [updateEach, heq]; simp only [hrest],
        forall_mem_cons (hsettled.sound hp) hps', hb₂.congr (by rw [owed_cons]; omega)⟩

theorem settles_update : Settles update := by
  intro x v total m h hm hb
  obtain ⟨ps, s, heq, hps, hb'⟩ := updateEach_balanced (d := 0) (s := ⟨m.resolver, h⟩) hm.patches
    (hb.congr (by omega))
  rw [update, heq]
  exact ⟨⟨hm.registry, hps⟩, hb'.congr (by simp only; omega)⟩

theorem uninstallEach_balanced (hps : ∀ p ∈ ps, p.Sound)
    (hb : InBalance x v false total (d + owed x v ps) s.host) :
    ∃ r ps' s', uninstallEach ps s = (r, ps', s') ∧ (∀ p ∈ ps', p.Sound) ∧
      InBalance x v false total (d + owed x v ps') s'.host := by
  induction ps generalizing d with
  | nil => exact ⟨true, [], s, rfl, hps, hb⟩
  | cons p ps ih =>
      have hframe : InBalance x v false total (d + p.owed x v + owed x v ps) s.host :=
        hb.congr (by rw [owed_cons]; omega)
      obtain ⟨r, ps', s₁, hrest, hps', hb₁⟩ :=
        ih (fun q hq ↦ hps q (List.mem_cons_of_mem p hq)) hframe
      have hframe' : InBalance x v false total (d + owed x v ps' + p.owed x v) s₁.host :=
        hb₁.congr (by omega)
      have hp : p.Sound := hps p (List.mem_cons_self ..)
      have hsettled := Patch.settles_uninstall hp hframe'
      exact ⟨_, _, _, by rw [uninstallEach, hrest], forall_mem_cons (hsettled.sound hp) hps',
        hsettled.balance.congr (by rw [owed_cons]; omega)⟩

theorem settles_disableAll : Settles fun m h ↦ (m.disableAll h).2 := by
  intro x v total m h hm hb
  obtain ⟨r, ps, s, heq, hps, hb'⟩ := uninstallEach_balanced (d := 0) (s := ⟨m.resolver, h⟩)
    hm.patches (hb.congr (by omega))
  simp only [disableAll, heq]
  exact ⟨⟨hm.registry, hps⟩, hb'.congr (by omega)⟩

theorem owed_build {r : Registry} (hr : r.Plain) {taken : List String} :
    (∀ p ∈ (r.build taken h).1, p.Sound) ∧ owed x v (r.build taken h).1 = 0 := by
  have hbuilt : ∀ p ∈ (r.build taken h).1, p.Sound ∧ p.owed x v = 0 := by
    intro p hp
    obtain ⟨e, he, rfl⟩ := Registry.mem_build hp
    refine ⟨⟨hr.install e he, hr.update e he, fun _ hc ↦ nomatch hc⟩, ?_⟩
    rw [Patch.owed, Patch.ofBody, Setting.owed_of_unwritten (hr.settings e he)]
    rfl
  refine ⟨fun p hp ↦ (hbuilt p hp).1, ?_⟩
  generalize (r.build taken h).1 = ps at hbuilt
  induction ps with
  | nil => rfl
  | cons p ps ih =>
      rw [owed_cons, (hbuilt p (List.mem_cons_self ..)).2,
        ih fun q hq ↦ hbuilt q (List.mem_cons_of_mem p hq)]
      rfl

theorem settles_instantiate : Settles fun m h ↦ (m.instantiate h).2 := by
  intro x v total m h hm hb
  cases hregistry : m.registry with
  | none =>
      simp only [instantiate, hregistry]
      exact ⟨hm, hb.quiet (quiet_note ..)⟩
  | some r =>
      have hquiet : Quiet h (r.build [] h).2 := Registry.build_told.quiet
      have hbuilt : (∀ p ∈ (r.build [] h).1, p.Sound) ∧ owed x v (r.build [] h).1 = 0 :=
        owed_build (hm.registry r hregistry)
      obtain ⟨hsound, howed⟩ := hbuilt
      simp only [instantiate, hregistry]
      refine ⟨⟨fun _ hr ↦ (nomatch hr), fun p hp ↦ ?_⟩,
        ((hb.quiet hquiet).quiet (quiet_note ..)).congr ?_⟩
      · rcases List.mem_append.mp hp with hp | hp
        · exact hm.patches p hp
        · exact hsound p hp
      · rw [owed_append, howed, Int.add_zero]

/-! ## Loading -/

theorem restoreSection_balanced (name : String) (w : Toml.Value) (hm : m.Sound)
    (hb : InBalance x v false total (owed x v m.patches) h) :
    (m.restoreSection name w h).2.1.Sound ∧
      InBalance x v false total (owed x v (m.restoreSection name w h).2.1.patches)
        (m.restoreSection name w h).2.2 := by
  unfold restoreSection
  split
  · exact ⟨hm, hb.quiet (quiet_note ..)⟩
  · rename_i saved _
    have hact := act_balanced (Patch.settles_restore saved) name hm hb
    split
    · rename_i heq
      rwa [heq] at hact
    · rename_i heq
      rw [heq] at hact
      exact ⟨hact.1, hact.2.quiet (quiet_note ..)⟩

theorem restoreSections_balanced (document : Toml.Document) (hm : m.Sound)
    (hb : InBalance x v false total (owed x v m.patches) h) :
    (m.restoreSections document h).2.1.Sound ∧
      InBalance x v false total (owed x v (m.restoreSections document h).2.1.patches)
        (m.restoreSections document h).2.2 := by
  induction document generalizing m h with
  | nil => exact ⟨hm, hb⟩
  | cons entry document ih =>
      obtain ⟨name, w⟩ := entry
      obtain ⟨hm', hb'⟩ := restoreSection_balanced name w hm hb
      exact ih hm' hb'

theorem settles_load (text : String) : Settles fun m h ↦ (m.load text h).2 := by
  intro x v total m h hm hb
  simp only [load]
  split
  · exact ⟨hm, hb⟩
  · rename_i document _
    obtain ⟨hm', hb'⟩ := restoreSections_balanced document hm hb
    exact ⟨hm', hb'.quiet (quiet_note ..)⟩

/-! ## Whole runs -/

/-- What can happen to a manager and its host: the manager is asked for something, or the host
changes what a page permits or where a deferred setting goes. -/
inductive Turn where
  | instantiate
  | enable (name : String)
  | disable (name : String)
  | setSetting (patch setting : String) (v : Setting.Value)
  | update
  | disableAll
  | load (text : String)
  | protect (page : Nat) (q : Protection)
  | place (cell : Nat) (a : Option Address)

def Turn.take : Turn → Manager → Host → Manager × Host
  | .instantiate, m, h => (m.instantiate h).2
  | .enable name, m, h => (m.enable name h).2
  | .disable name, m, h => (m.disable name h).2
  | .setSetting patch setting v, m, h => (m.setSetting patch setting v h).2
  | .update, m, h => m.update h
  | .disableAll, m, h => (m.disableAll h).2
  | .load text, m, h => (m.load text h).2
  | .protect page q, m, h => (m, h.protect page q)
  | .place cell a, m, h => (m, h.setDeferred cell a)

def play : List Turn → Manager → Host → Manager × Host
  | [], m, h => (m, h)
  | t :: ts, m, h => play ts (t.take m h).1 (t.take m h).2

/-- No turn changes the sum of what memory holds and what the patches owe. -/
theorem settles_take (t : Turn) : Settles t.take := by
  cases t with
  | instantiate => exact settles_instantiate
  | enable name => exact settles_enable name
  | disable name => exact settles_disable name
  | setSetting patch setting v => exact settles_setSetting patch setting v
  | update => exact settles_update
  | disableAll => exact settles_disableAll
  | load text => exact settles_load text
  | protect page q =>
      intro x v total m h hm hb
      exact ⟨hm, hb.protect page q⟩
  | place cell a =>
      intro x v total m h hm hb
      exact ⟨hm, hb.quiet (.of_eq rfl rfl rfl)⟩

theorem settles_play (ts : List Turn) : Settles (play ts) := by
  intro x v total m h hm hb
  induction ts generalizing m h with
  | nil => exact ⟨hm, hb⟩
  | cons t ts ih =>
      obtain ⟨hm', hb'⟩ := settles_take t hm hb
      exact ih hm' hb'

theorem owed_of_nothing (hps : ∀ p ∈ ps, p.changes = [] ∧ Setting.Unwritten p.settings) :
    owed x v ps = 0 := by
  induction ps with
  | nil => rfl
  | cons p ps ih =>
      obtain ⟨hchanges, hsettings⟩ := hps p (List.mem_cons_self ..)
      rw [owed_cons, Patch.owed, hchanges, Setting.owed_of_unwritten hsettings,
        ih fun q hq ↦ hps q (List.mem_cons_of_mem p hq)]
      rfl

/-- Whatever a manager is asked for, in any order and however its patches overlap: as soon as no
patch has a change recorded and no setting is in memory, each byte that was mapped at the start, and
was not the pool's, holds what it held then. -/
theorem bytes_conserved (registry : Registry) (hplain : registry.Plain) (resolver : Resolver)
    (h₀ : Host) (hs : h₀.pool.Sound) (ts : List Turn) :
    let m := (play ts (new registry resolver) h₀).1
    let h := (play ts (new registry resolver) h₀).2
    (∀ p ∈ m.patches, p.changes = [] ∧ ∀ y ∈ p.settings, y.live = none) →
      ∀ x, h₀.memory.Mapped x → ¬ h₀.pool.Covers x →
        h.memory.Mapped x ∧ ¬ h.pool.Covers x ∧ h.memory.byte x = h₀.memory.byte x := by
  intro m h hnothing x hmapped hout
  have hm : (new registry resolver).Sound := by
    refine ⟨fun r hr ↦ ?_, fun _ hp ↦ nomatch hp⟩
    cases hr
    exact hplain
  -- the value to account for is the one at the start
  have hb : InBalance x (h₀.memory.byte x) false 1 (owed x (h₀.memory.byte x) []) h₀ :=
    ⟨hmapped, hout, hs, by simp [owed, tally, Memory.held]⟩
  obtain ⟨-, hb'⟩ := settles_play ts hm hb
  have hbalance := hb'.balance
  rw [owed_of_nothing hnothing, Int.add_zero, tally, Memory.held] at hbalance
  refine ⟨hb'.mapped, hb'.outside, ?_⟩
  split at hbalance
  · assumption
  · cases hbalance

def Turn.firstInFirstOut : List Turn :=
  [.instantiate, .enable "first", .enable "second", .disable "first", .disable "second",
    .disable "first"]

/-- Disabling the first is refused at first. In the end all bytes are back. -/
theorem bytes_conserved_overlapping :
    let h := (play Turn.firstInFirstOut (new .overlapping (.new .unknown ⟨0, 0⟩)) .onePage).2
    h.memory.Mapped 1 ∧ ¬ h.pool.Covers 1 ∧ h.memory.byte 1 = Host.onePage.memory.byte 1 := by
  have hplain : Registry.overlapping.Plain := by
    refine ⟨fun e he ↦ ?_, fun e he ↦ ?_, fun e he ↦ ?_⟩
    all_goals obtain ⟨name, a, new, rfl⟩ := Registry.mem_overlapping he
    · exact Edit.Plain.ofEdit fun _ ↦ trivial
    · exact fun _ ↦ trivial
    · intro _ hy
      cases hy
  have hnothing : ∀ p ∈ (play Turn.firstInFirstOut (new .overlapping (.new .unknown ⟨0, 0⟩))
      .onePage).1.patches, p.changes.isEmpty = true ∧ p.settings.isEmpty = true := by
    decide +kernel
  have hmapped : Host.onePage.memory.Mapped 1 := by decide
  have hconserved := bytes_conserved .overlapping hplain (.new .unknown ⟨0, 0⟩) .onePage
    Trampoline.Pool.sound_empty Turn.firstInFirstOut
  refine hconserved (fun p hp ↦ ?_) 1 hmapped (Trampoline.Pool.not_covers_empty 1)
  obtain ⟨hchanges, hsettings⟩ := hnothing p hp
  refine ⟨List.isEmpty_iff.mp hchanges, fun y hy ↦ ?_⟩
  rw [List.isEmpty_iff.mp hsettings] at hy
  cases hy

end Manager

end HotPatch
