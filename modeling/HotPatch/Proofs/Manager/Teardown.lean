import HotPatch.Proofs.Disjoint
import HotPatch.Proofs.Manager.Registry
import HotPatch.Proofs.Patch.Program
import HotPatch.Proofs.Setting.Bounds

/-!
# The last goes first

Patches that were enabled one after the other, in the order of registration, are disabled in the
reverse order. However their writes overlap, each one then finds memory as it left it, so every
restore succeeds and in the end memory is as it was before the first of them.
-/

namespace HotPatch

open Host

variable {h h' h₀ h₁ h₂ : Host}

/-! ## One patch -/

namespace Patch

variable {p : Patch} {s : Site}

/-- What an attempt to install the patch puts into memory lies outside the pool, and its settings
lie apart from each other. -/
structure Separate (p : Patch) (s : Site) : Prop where
  changes : ∀ {o cs s₁}, (p.body.install p.installs).run p.settings [] s = (o, cs, s₁) →
    ∀ c ∈ cs, ∀ r ∈ c.records, r.Avoids s₁.host.pool.Covers
  settings : ∀ {cs s₁}, (p.body.install p.installs).run p.settings [] s = (.done, cs, s₁) →
    ∀ r ∈ Setting.records (Setting.writeAll p.settings s₁).2.1, r.Avoids s₁.host.pool.Covers
  apart : ∀ {cs s₁}, (p.body.install p.installs).run p.settings [] s = (.done, cs, s₁) →
    (Setting.records (Setting.writeAll p.settings s₁).2.1).Pairwise UndoRecord.Disjoint

/-- A patch with one setting at most keeps to itself while the pool has no page. -/
theorem separate_of_lone (hsettings : p.settings.length ≤ 1)
    (hpool : ((p.body.install p.installs).run p.settings [] s).2.2.host.pool = .empty) :
    p.Separate s where
  changes hrun c hc r hr := by
    rw [hrun] at hpool
    exact avoids_of_empty hpool r
  settings hrun r hr := by
    rw [hrun] at hpool
    exact avoids_of_empty hpool r
  apart {cs s₁} hrun := by
    have hsame := congrArg List.length (Setting.map_withdrawn_writeAll p.settings s₁)
    rw [List.length_map, List.length_map] at hsame
    exact Setting.pairwise_records (hsame.trans_le hsettings) _

/-- A patch without settings keeps to itself while the pool has no page. -/
theorem separate_of_empty (hsettings : p.settings = [])
    (hpool : ((p.body.install p.installs).run p.settings [] s).2.2.host.pool = .empty) :
    p.Separate s := by
  refine separate_of_lone ?_ hpool
  rw [hsettings]
  exact Nat.zero_le 1

theorem restorable_of_apart {xs : List Setting} (hxs : Setting.Unwritten xs)
    (hsettings : ∀ r ∈ Setting.records (Setting.writeAll xs s).2.1, r.Avoids s.host.pool.Covers)
    (hapart : (Setting.records (Setting.writeAll xs s).2.1).Pairwise UndoRecord.Disjoint) :
    Setting.Restorable Intact (Setting.writeAll xs s).2.1 s.host
      (Setting.writeAll xs s).2.2.host := by
  obtain ⟨r, ys, s', m, heq, hw, hquiet⟩ := Setting.writeAll_of_unwritten hxs s
  rw [heq] at hsettings hapart ⊢
  intro h₃ hbeyond
  obtain ⟨m', hu, hback⟩ := Intact.unwinds hw hsettings hquiet hbeyond
  exact ⟨m', hu.inOrder hapart, hback⟩

/-- Installing a patch either fails and is undone, or can be undone later. -/
theorem install_intact (hp : p.Clean) (hplain : (p.body.install p.installs).Plain)
    (hs : s.host.pool.Sound) (hsep : p.Separate s) :
    ∃ b p' s', p.install s = (b, p', s') ∧ p'.metadata = p.metadata ∧ s'.host.pool.Sound ∧
      (b = false ∧ p'.Clean ∧ Intact s.host s'.host ∨
        b = true ∧ p'.Undoable Intact s.host s'.host) := by
  obtain ⟨o, cs, s₁, hrun, ha⟩ := hplain.run p.settings [] s hs
  rw [List.nil_append] at hrun
  have hr := ha.revertible (hsep.changes hrun)
  have hx : o = .done → Setting.Restorable Intact (Setting.writeAll p.settings s₁).2.1 s₁.host
      (Setting.writeAll p.settings s₁).2.2.host := by
    rintro rfl
    exact restorable_of_apart hp.settings (hsep.settings hrun) (hsep.apart hrun)
  obtain ⟨r, xs, s₂, m, hwrite, -, hquiet⟩ := Setting.writeAll_of_unwritten hp.settings s₁
  obtain ⟨b, p', s', heq, hmetadata, hends⟩ := install_cases tolerant_intact hp hrun hr hx
  refine ⟨b, p', s', heq, hmetadata, ?_, ?_⟩
  · rcases hends with ⟨-, -, hintact⟩ | ⟨-, -, hdone⟩
    · exact hintact.sound hs
    · rw [hwrite] at hdone
      exact hdone.sound (hquiet.sound (ha.sound hs))
  · rcases hends with hfailed | ⟨hb, hundo, -⟩
    · exact .inl hfailed
    · exact .inr ⟨hb, hundo⟩

end Patch

/-! ## Patches in order -/

/-- From where the last patch left the host, each patch can be uninstalled once those after it
are. -/
inductive Stacked : List Patch → Host → Host → Prop where
  | nil {h h' : Host} (hintact : Intact h h') : Stacked [] h h'
  | clean {p : Patch} {ps : List Patch} {h h' : Host} (hp : p.Clean) (hrest : Stacked ps h h') :
      Stacked (p :: ps) h h'
  | enabled {p : Patch} {ps : List Patch} {h h₁ h' : Host} (hp : p.Undoable Intact h h₁)
      (hrest : Stacked ps h₁ h') : Stacked (p :: ps) h h'

namespace Stacked

variable {p : Patch} {ps : List Patch}

theorem intact_left (hi : Intact h₀ h) (hst : Stacked ps h h') : Stacked ps h₀ h' := by
  induction hst with
  | nil hintact => exact .nil (hi.trans hintact)
  | clean hp _ ih => exact .clean hp (ih hi)
  | enabled hp hrest _ =>
      refine .enabled (fun s hbeyond ↦ ?_) hrest
      obtain ⟨p', s', heq, hclean, hmetadata, hback⟩ := hp s hbeyond
      exact ⟨p', s', heq, hclean, hmetadata, hi.trans hback⟩

theorem intact_right (hst : Stacked ps h h₁) (hi : Intact h₁ h₂) : Stacked ps h h₂ := by
  induction hst with
  | nil hintact => exact .nil (hintact.trans hi)
  | clean hp _ ih => exact .clean hp (ih hi)
  | enabled hp _ ih => exact .enabled hp (ih hi)

theorem append_clean (hst : Stacked ps h h') (hp : p.Clean) : Stacked (ps ++ [p]) h h' := by
  induction hst with
  | nil hintact => exact .clean hp (.nil hintact)
  | clean hp' _ ih => exact .clean hp' ih
  | enabled hp' _ ih => exact .enabled hp' ih

theorem append_enabled (hst : Stacked ps h h₁) (hp : p.Undoable Intact h₁ h₂) :
    Stacked (ps ++ [p]) h h₂ := by
  induction hst with
  | nil hintact => exact intact_left hintact (.enabled hp (.nil (.refl h₂)))
  | clean hp' _ ih => exact .clean hp' (ih hp)
  | enabled hp' _ ih => exact .enabled hp' (ih hp)

/-- Stacked patches can all be uninstalled, which leads back to the first host. -/
theorem uninstallEach (hst : Stacked ps h h') (s : Site) (hbeyond : Intact h' s.host) :
    ∃ ps' s', Manager.uninstallEach ps s = (true, ps', s') ∧ (∀ p ∈ ps', p.Clean) ∧
      Intact h s'.host := by
  induction hst with
  | nil hintact => exact ⟨[], s, rfl, fun _ hp ↦ (nomatch hp), hintact.trans hbeyond⟩
  | @clean p ps h h' hp _ ih =>
      obtain ⟨ps', s', heq, hclean, hback⟩ := ih hbeyond
      refine ⟨p :: ps', s', ?_, fun q hq ↦ ?_, hback⟩
      · simp only [Manager.uninstallEach, heq, hp.uninstall, Bool.and_self]
      · rcases List.mem_cons.mp hq with rfl | hq
        · exact hp
        · exact hclean q hq
  | @enabled p ps h h₁ h' hp _ ih =>
      obtain ⟨ps', s', heq, hclean, hback⟩ := ih hbeyond
      obtain ⟨p', s'', heq', hclean', -, hback'⟩ := hp s' hback
      refine ⟨p' :: ps', s'', ?_, fun q hq ↦ ?_, hback'⟩
      · simp only [Manager.uninstallEach, heq, heq', Bool.and_self]
      · rcases List.mem_cons.mp hq with rfl | hq
        · exact hclean'
        · exact hclean q hq

end Stacked

namespace Manager

variable {m : Manager}

/-! ## Enabling -/

def enableAll : List String → Manager → Host → Manager × Host
  | [], m, h => (m, h)
  | name :: names, m, h =>
    match m.enable name h with
    | (_, m, h) => enableAll names m h

/-- The property holds each time before the next of the patches is enabled. -/
def BeforeEach (P : String → Manager → Host → Prop) : List String → Manager → Host → Prop
  | [], _, _ => True
  | name :: names, m, h =>
    P name m h ∧ BeforeEach P names (m.enable name h).2.1 (m.enable name h).2.2

theorem actFirst_eq {α : Type} {f : Patch → Site → α × Patch × Site} {front back : List Patch}
    {p p' : Patch} {a : α} {s s' : Site} (hfront : p.name ∉ front.map Patch.name)
    (hf : f p s = (a, p', s')) :
    actFirst p.name f (front ++ p :: back) s = (some a, front ++ p' :: back, s') := by
  induction front with
  | nil => simp only [List.nil_append, actFirst, if_pos, hf]
  | cons q front ih =>
      rw [List.map_cons, List.mem_cons, not_or] at hfront
      rw [List.cons_append, actFirst, if_neg fun h ↦ hfront.1 h.symm, ih hfront.2]
      rfl

structure Midway (m : Manager) (h₀ h : Host) (front back : List Patch) : Prop where
  patches : m.patches = front ++ back
  nodup : (m.patches.map Patch.name).Nodup
  stacked : Stacked front h₀ h
  clean : ∀ p ∈ back, p.Clean
  plain : ∀ p ∈ back, ∀ n, (p.body.install n).Plain
  sound : h.pool.Sound

namespace Midway

variable {front back : List Patch} {p : Patch}

theorem skip (hm : Midway m h₀ h front (p :: back)) : Midway m h₀ h (front ++ [p]) back where
  patches := by rw [hm.patches, List.append_assoc, List.singleton_append]
  nodup := hm.nodup
  stacked := hm.stacked.append_clean (hm.clean p (List.mem_cons_self ..))
  clean q hq := hm.clean q (List.mem_cons_of_mem p hq)
  plain q hq := hm.plain q (List.mem_cons_of_mem p hq)
  sound := hm.sound

/-- The next patch is enabled on top of the others, or fails and leaves the host intact. -/
theorem enable (hm : Midway m h₀ h front (p :: back)) (hsep : p.Separate ⟨m.resolver, h⟩) :
    (∃ p', Midway (m.enable p.name h).2.1 h₀ (m.enable p.name h).2.2 (front ++ [p']) back) ∧
      ((m.enable p.name h).1 = false → Intact h (m.enable p.name h).2.2) := by
  have hp := hm.clean p (List.mem_cons_self ..)
  obtain ⟨b, p', s', hinstall, hmetadata, hsound, hends⟩ := Patch.install_intact (p := p.touch)
    ⟨hp.disabled, hp.changes, hp.settings⟩ (hm.plain p (List.mem_cons_self ..) _) hm.sound
    ⟨hsep.changes, hsep.settings, hsep.apart⟩
  have hname : p'.name = p.name := congrArg Metadata.name hmetadata
  have hnodup := hm.nodup
  rw [hm.patches, List.map_append, List.map_cons] at hnodup
  have hfront : p.name ∉ front.map Patch.name :=
    fun hmem ↦ (List.nodup_append.mp hnodup).2.2 _ hmem _ (List.mem_cons_self ..) rfl
  have heq : m.enable p.name h =
      (b, { m with resolver := s'.resolver, patches := front ++ p' :: back }, s'.host) := by
    simp only [Manager.enable, act, hm.patches,
      actFirst_eq (f := fun p s ↦ p.touch.install s) hfront hinstall]
  rw [heq]
  refine ⟨⟨p', ?_, ?_, ?_, ?_, ?_, hsound⟩, fun hb ↦ ?_⟩
  · rw [List.append_assoc, List.singleton_append]
  · rwa [List.map_append, List.map_cons, hname]
  · rcases hends with ⟨-, hclean, hintact⟩ | ⟨-, hundo⟩
    · exact (hm.stacked.intact_right hintact).append_clean hclean
    · exact hm.stacked.append_enabled hundo
  · intro q hq
    exact hm.clean q (List.mem_cons_of_mem p hq)
  · intro q hq
    exact hm.plain q (List.mem_cons_of_mem p hq)
  · rcases hends with ⟨-, -, hintact⟩ | ⟨hb', -⟩
    · exact hintact
    · cases hb.symm.trans hb'

/-- All patches in `back` get their turn, some of them being enabled. -/
theorem enableAll {names : List String} (hm : Midway m h₀ h front back)
    (hsub : names.Sublist (back.map Patch.name))
    (hsep : BeforeEach (fun name m h ↦ ∀ p ∈ m.patches, p.name = name → p.Separate ⟨m.resolver, h⟩)
      names m h) :
    (∃ ps, Midway (enableAll names m h).1 h₀ (enableAll names m h).2 ps []) ∧
      BeforeEach (fun name m h ↦ (m.enable name h).1 = false → Intact h (m.enable name h).2.2)
        names m h := by
  induction back generalizing names m h front with
  | nil =>
      obtain rfl : names = [] := List.sublist_nil.mp hsub
      exact ⟨⟨front, hm⟩, trivial⟩
  | cons p back ih =>
      rw [List.map_cons] at hsub
      cases hsub with
      | cons _ hsub => exact ih hm.skip hsub hsep
      | cons_cons _ hsub =>
          have hmem : p ∈ m.patches := by
            rw [hm.patches]
            exact List.mem_append_right front (List.mem_cons_self ..)
          obtain ⟨⟨p', hm'⟩, hfailed⟩ := hm.enable (hsep.1 p hmem rfl)
          obtain ⟨hall, heach⟩ := ih hm' hsub hsep.2
          exact ⟨hall, hfailed, heach⟩

end Midway

/-! ## Disabling all -/

theorem BeforeEach.mono {P Q : String → Manager → Host → Prop} (hPQ : ∀ name m h, P name m h →
    Q name m h) {names : List String} {m : Manager} {h : Host} (hP : BeforeEach P names m h) :
    BeforeEach Q names m h := by
  induction names generalizing m h with
  | nil => trivial
  | cons name names ih => exact ⟨hPQ name m h hP.1, ih hP.2⟩

/-- Patches with plain bodies are enabled in the order of registration, some of them or all, and
each one writes outside the pool only. Then whichever fails leaves memory as it was before it, and
to disable all of them succeeds and leaves memory as it was before the first, both outside the
pool. -/
theorem disableAll_restores (registry : Registry) (resolver : Resolver) (h₀ : Host)
    (hs : h₀.pool.Sound) (hplain : ∀ e ∈ registry, ∀ n, (e.body.install n).Plain)
    (hunwritten : ∀ e ∈ registry, Setting.Unwritten e.body.settings) (names : List String)
    (hsub : names.Sublist ((new registry resolver).instantiate h₀).2.1.names)
    (hsep : BeforeEach
      (fun name m h ↦ ∀ p ∈ m.patches, p.name = name → p.Separate ⟨m.resolver, h⟩) names
      ((new registry resolver).instantiate h₀).2.1 ((new registry resolver).instantiate h₀).2.2) :
    let m := ((new registry resolver).instantiate h₀).2.1
    let h := ((new registry resolver).instantiate h₀).2.2
    let enabled := enableAll names m h
    let ended := enabled.1.disableAll enabled.2
    BeforeEach (fun name m h ↦ (m.enable name h).1 = false →
        SameOutside h (m.enable name h).2.2) names m h ∧
      ended.1 = true ∧ (∀ p ∈ ended.2.1.patches, p.Clean) ∧ SameOutside h ended.2.2 := by
  intro m h enabled ended
  obtain ⟨hm, hquiet⟩ := instantiate_new registry resolver h₀
  have hentry : ∀ p ∈ m.patches, ∃ e ∈ registry, p = .ofBody e.metadata e.body := by
    intro p hp
    rw [show m = _ from hm] at hp
    exact Registry.mem_build hp
  have hstart : Midway m h h [] m.patches := by
    refine ⟨rfl, ?_, .nil (.refl h), ?_, ?_, hquiet.sound hs⟩
    · rw [show m = _ from hm]
      exact Registry.nodup_build.1
    · intro p hp
      obtain ⟨e, he, rfl⟩ := hentry p hp
      exact ⟨rfl, rfl, hunwritten e he⟩
    · intro p hp
      obtain ⟨e, he, rfl⟩ := hentry p hp
      exact hplain e he
  obtain ⟨⟨ps, hend⟩, heach⟩ := hstart.enableAll hsub hsep
  obtain ⟨ps', s', heq, hclean, hback⟩ := hend.stacked.uninstallEach ⟨enabled.1.resolver, enabled.2⟩
    (.refl _)
  have hpatches : enabled.1.patches = ps := by rw [hend.patches, List.append_nil]
  have hended : ended = (true, { enabled.1 with resolver := s'.resolver, patches := ps' },
      s'.host) := by
    simp only [ended, disableAll, hpatches, heq]
  rw [hended]
  exact ⟨heach.mono fun name m h hfailed hb ↦ (hfailed hb).sameOutside, rfl, hclean,
    hback.sameOutside⟩

/-- Both patches are enabled. The second writes over a byte of the first and is disabled before
it. -/
theorem disableAll_restores_overlapping :
    let started := (new .overlapping (.new .unknown ⟨0, 0⟩)).instantiate .onePage
    let enabled := enableAll ["first", "second"] started.2.1 started.2.2
    let ended := enabled.1.disableAll enabled.2
    ended.1 = true ∧ (∀ p ∈ ended.2.1.patches, p.Clean) ∧ SameOutside started.2.2 ended.2.2 := by
  have hplain : ∀ e ∈ Registry.overlapping, ∀ n, (e.body.install n).Plain := by
    intro e he
    obtain ⟨name, a, new, rfl⟩ := Registry.mem_overlapping he
    exact Edit.Plain.ofEdit fun _ ↦ trivial
  have hunwritten : ∀ e ∈ Registry.overlapping, Setting.Unwritten e.body.settings := by
    intro e he
    obtain ⟨name, a, new, rfl⟩ := Registry.mem_overlapping he
    intro _ hy
    cases hy
  have hempty : BeforeEach (fun _ m h ↦ ∀ p ∈ m.patches, p.settings = [] ∧
      ((p.body.install p.installs).run p.settings [] ⟨m.resolver, h⟩).2.2.host.pool = .empty)
        ["first", "second"] ((new .overlapping (.new .unknown ⟨0, 0⟩)).instantiate .onePage).2.1
        ((new .overlapping (.new .unknown ⟨0, 0⟩)).instantiate .onePage).2.2 := by
    refine ⟨?_, ?_, trivial⟩
    · decide +kernel
    · decide +kernel
  have hrestores := disableAll_restores .overlapping (.new .unknown ⟨0, 0⟩) .onePage
    Trampoline.Pool.sound_empty hplain hunwritten ["first", "second"] (by decide +kernel)
    (hempty.mono fun name m h hp p hmem _ ↦ Patch.separate_of_empty (hp p hmem).1 (hp p hmem).2)
  exact hrestores.2

end Manager

end HotPatch
