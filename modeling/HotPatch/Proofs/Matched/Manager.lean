import HotPatch.Proofs.Manager.Conservation
import HotPatch.Proofs.Matched.Patch

/-!
# A manager writes evenly

Settings start without a write in memory, and whatever the manager is asked for, their writes are as
long as their bindings are wide, and each write puts as many bytes as it expects to find.
-/

namespace HotPatch

open Host

theorem Host.protect_exact (h : Host) (page : Nat) (q : Protection) :
    Exact h (h.protect page q) := by
  unfold Host.protect
  split
  · rename_i m heq
    unfold Memory.protect at heq
    split at heq
    · split at heq
      · cases heq
      · cases heq
        exact .aside rfl rfl rfl
    · cases heq
  · exact .refl h

namespace Manager

variable {m : Manager} {ps : List Patch} {h : Host} {s : Site}

structure Matched (m : Manager) : Prop where
  registry : ∀ r, m.registry = some r → ∀ e ∈ r, Setting.Unwritten e.body.settings
  patches : ∀ p ∈ m.patches, p.Matched

def KeepsMatched (f : Manager → Host → Manager × Host) : Prop :=
  ∀ {m : Manager}, m.Matched → ∀ h, (f m h).1.Matched ∧ Exact h (f m h).2

theorem actFirst_exact {α : Type} {f : Patch → Site → α × Patch × Site} (hf : Patch.KeepsMatched f)
    (name : String) (hps : ∀ p ∈ ps, p.Matched) (s : Site) :
    (∀ p ∈ (actFirst name f ps s).2.1, p.Matched) ∧
      Exact s.host (actFirst name f ps s).2.2.host := by
  induction ps with
  | nil => exact ⟨hps, .refl _⟩
  | cons p ps ih =>
      obtain ⟨hp, hrest⟩ := List.forall_mem_cons.mp hps
      rw [actFirst]
      split
      · obtain ⟨hp', hexact⟩ := hf hp s
        exact ⟨List.forall_mem_cons.mpr ⟨hp', hrest⟩, hexact⟩
      · obtain ⟨hps', hexact⟩ := ih hrest
        exact ⟨List.forall_mem_cons.mpr ⟨hp, hps'⟩, hexact⟩

theorem act_exact {α : Type} {f : Patch → Site → α × Patch × Site} (hf : Patch.KeepsMatched f)
    (name : String) (hm : m.Matched) (h : Host) :
    (m.act name f h).2.1.Matched ∧ Exact h (m.act name f h).2.2 := by
  obtain ⟨hps, hexact⟩ := actFirst_exact hf name hm.patches ⟨m.resolver, h⟩
  exact ⟨⟨hm.registry, hps⟩, hexact⟩

theorem keeps_enable (name : String) : KeepsMatched fun m h ↦ (m.enable name h).2 := by
  intro m hm h
  have hf : Patch.KeepsMatched fun p s ↦ p.touch.install s :=
    fun hp s ↦ Patch.install_exact hp.touch s
  have hact := act_exact hf name hm h
  simp only [enable]
  split
  · rename_i heq
    rwa [heq] at hact
  · rename_i heq
    rw [heq] at hact
    exact ⟨hact.1, hact.2.noted ..⟩

theorem keeps_disable (name : String) : KeepsMatched fun m h ↦ (m.disable name h).2 := by
  intro m hm h
  have hf : Patch.KeepsMatched fun p s ↦ p.touch.uninstall s :=
    fun hp s ↦ Patch.uninstall_exact hp.touch s
  have hact := act_exact hf name hm h
  simp only [disable]
  split
  · rename_i heq
    rwa [heq] at hact
  · rename_i heq
    rw [heq] at hact
    exact ⟨hact.1, hact.2.noted ..⟩

theorem keeps_setSetting (patch setting : String) (v : Setting.Value) :
    KeepsMatched fun m h ↦ (m.setSetting patch setting v h).2 := by
  intro m hm h
  have hact := act_exact (Patch.setSetting_exact setting v) patch hm h
  simp only [setSetting]
  split
  · rename_i heq
    rwa [heq] at hact
  · rename_i heq
    rwa [heq] at hact

theorem updateEach_exact (hps : ∀ p ∈ ps, p.Matched) (s : Site) :
    (∀ p ∈ (updateEach ps s).1, p.Matched) ∧ Exact s.host (updateEach ps s).2.host := by
  induction ps generalizing s with
  | nil => exact ⟨hps, .refl _⟩
  | cons p ps ih =>
      obtain ⟨hp, hrest⟩ := List.forall_mem_cons.mp hps
      obtain ⟨hp', hfirst⟩ := Patch.update_exact hp s
      obtain ⟨hps', hexact⟩ := ih hrest (p.update s).2
      exact ⟨List.forall_mem_cons.mpr ⟨hp', hps'⟩, hfirst.trans hexact⟩

theorem keeps_update : KeepsMatched update := by
  intro m hm h
  obtain ⟨hps, hexact⟩ := updateEach_exact hm.patches ⟨m.resolver, h⟩
  exact ⟨⟨hm.registry, hps⟩, hexact⟩

theorem uninstallEach_exact (hps : ∀ p ∈ ps, p.Matched) (s : Site) :
    (∀ p ∈ (uninstallEach ps s).2.1, p.Matched) ∧
      Exact s.host (uninstallEach ps s).2.2.host := by
  induction ps with
  | nil => exact ⟨hps, .refl _⟩
  | cons p ps ih =>
      obtain ⟨hp, hrest⟩ := List.forall_mem_cons.mp hps
      obtain ⟨hps', hexact⟩ := ih hrest
      obtain ⟨hp', hlast⟩ := Patch.uninstall_exact hp (uninstallEach ps s).2.2
      exact ⟨List.forall_mem_cons.mpr ⟨hp', hps'⟩, hexact.trans hlast⟩

theorem keeps_disableAll : KeepsMatched fun m h ↦ (m.disableAll h).2 := by
  intro m hm h
  obtain ⟨hps, hexact⟩ := uninstallEach_exact hm.patches ⟨m.resolver, h⟩
  exact ⟨⟨hm.registry, hps⟩, hexact⟩

theorem matched_ofBody {metadata : Metadata} {body : Body}
    (hbody : Setting.Unwritten body.settings) : (Patch.ofBody metadata body).Matched :=
  fun x hx ↦ Setting.matched_of_live_eq_none (hbody x hx)

theorem keeps_instantiate : KeepsMatched fun m h ↦ (m.instantiate h).2 := by
  intro m hm h
  simp only [instantiate]
  split
  · exact ⟨hm, .note ..⟩
  · rename_i r hr
    have htold : Told h (r.build [] h).2 := Registry.build_told
    refine ⟨⟨?_, List.forall_mem_append.mpr ⟨hm.patches, fun p hp ↦ ?_⟩⟩, htold.exact.noted ..⟩
    · intro r hnone
      cases hnone
    · obtain ⟨e, he, rfl⟩ := Registry.mem_build hp
      exact matched_ofBody (hm.registry r hr e he)

theorem restoreSection_exact (name : String) (w : Toml.Value) (hm : m.Matched) (h : Host) :
    (m.restoreSection name w h).2.1.Matched ∧ Exact h (m.restoreSection name w h).2.2 := by
  unfold restoreSection
  split
  · exact ⟨hm, .note ..⟩
  · rename_i saved _
    have hact := act_exact (Patch.restore_exact saved) name hm h
    split
    · rename_i heq
      rwa [heq] at hact
    · rename_i heq
      rw [heq] at hact
      exact ⟨hact.1, hact.2.noted ..⟩

theorem restoreSections_exact (document : Toml.Document) (hm : m.Matched) (h : Host) :
    (m.restoreSections document h).2.1.Matched ∧
      Exact h (m.restoreSections document h).2.2 := by
  induction document generalizing m h with
  | nil => exact ⟨hm, .refl h⟩
  | cons entry document ih =>
      obtain ⟨name, w⟩ := entry
      obtain ⟨hm', hfirst⟩ := restoreSection_exact name w hm h
      exact (ih hm' _).imp_right hfirst.trans

theorem keeps_load (text : String) : KeepsMatched fun m h ↦ (m.load text h).2 := by
  intro m hm h
  simp only [load]
  split
  · exact ⟨hm, .refl h⟩
  · rename_i document _
    obtain ⟨hm', hexact⟩ := restoreSections_exact document hm h
    exact ⟨hm', hexact.noted ..⟩

theorem release_exact (m : Manager) (h : Host) : Exact h (m.release h) := by
  have hfold (ps : List Patch) (s : Site) :
      Exact s.host (ps.foldl (fun s p ↦ p.release s) s).host := by
    induction ps generalizing s with
    | nil => exact .refl _
    | cons p ps ih => exact (p.release_exact s).trans (ih (p.release s))
  exact hfold m.patches ⟨m.resolver, h⟩

/-- No turn leaves a setting with a write that is longer or shorter than its binding. -/
theorem keeps_take (t : Turn) : KeepsMatched t.take := by
  cases t with
  | instantiate => exact keeps_instantiate
  | enable name => exact keeps_enable name
  | disable name => exact keeps_disable name
  | setSetting patch setting v => exact keeps_setSetting patch setting v
  | update => exact keeps_update
  | disableAll => exact keeps_disableAll
  | load text => exact keeps_load text
  | protect page q => exact fun hm h ↦ ⟨hm, h.protect_exact page q⟩
  | place cell a => exact fun hm h ↦ ⟨hm, .aside rfl rfl rfl⟩

end Manager

end HotPatch
