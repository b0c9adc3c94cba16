import HotPatch.Proofs.Patch.Saved
import HotPatch.Proofs.Patch.Sparing
import HotPatch.Proofs.Runs
import HotPatch.Proofs.Setting.Replacing

/-!
# Memory mirrors the settings

Settings that are bound apart to fixed addresses, to which nothing else writes, are in memory
exactly while their patch is enabled. No restoring of them ever fails: wherever a call breaks off,
what they are bound to is as they left it.
-/

namespace HotPatch

open Host

namespace Setting

variable {x : Setting} {xs ys : List Setting} {live : Bool} {r : UndoRecord}

/-- A switch, an integer or a choice as the body of a patch declares it, which is bound to a fixed
address or not at all. -/
inductive Anchored : Setting → Prop where
  | bool (name : String) (default : Bool) : Anchored (Setting.bool name default)
  | int (name : String) (default a b : Int) : Anchored (Setting.int name default a b)
  | choice (name : String) (default : Nat) (options : List String) :
      Anchored (Setting.choice name default options)
  | describe {x : Setting} (description : String) : Anchored x → Anchored (x.describe description)
  | bind {x : Setting} (a : Address) (width : Width) :
      Anchored x → Anchored (x.bind ⟨.fixed a, width⟩)

namespace Anchored

theorem inBounds (hx : x.Anchored) : x.InBounds := by
  induction hx with
  | bool name default => exact inBounds_bool name default
  | int name default a b => exact inBounds_int name default a b
  | choice name default options => exact inBounds_choice name default options
  | describe description _ ih => exact ih.describe description
  | bind a width _ ih => exact ih.bind ⟨.fixed a, width⟩

theorem inStep (hx : x.Anchored) : x.InStep false := by
  have hfields : x.pending = false ∧ x.live = none ∧
      ∀ b, x.binding = some b → ∃ a, b.place = .fixed a := by
    induction hx with
    | bool name default => exact ⟨rfl, rfl, fun _ hb ↦ nomatch hb⟩
    | int name default a b => exact ⟨rfl, rfl, fun _ hb ↦ nomatch hb⟩
    | choice name default options => exact ⟨rfl, rfl, fun _ hb ↦ nomatch hb⟩
    | describe description _ ih => exact ih
    | bind a width _ ih =>
        refine ⟨ih.1, ih.2.1, fun b hb ↦ ?_⟩
        cases hb
        exact ⟨a, rfl⟩
  obtain ⟨hpending, hlive, hplace⟩ := hfields
  cases hbinding : x.binding with
  | none => exact .unbound hpending hbinding hlive
  | some b =>
      obtain ⟨a, ha⟩ := hplace b hbinding
      exact .off hpending hbinding ha hlive

end Anchored

def Bound (xs : List Setting) (z : Address) : Prop :=
  ∃ b ∈ bindings xs, ∃ a, b.place = .fixed a ∧ a ≤ z ∧ z < a + b.width.length

theorem mem_bindings {b : Binding} (hx : x ∈ xs) (hb : x.binding = some b) : b ∈ bindings xs :=
  List.mem_filterMap.mpr ⟨x, hx, hb⟩

theorem within_bound (hxs : ∀ x ∈ xs, ∃ live, x.InStep live) :
    ∀ r ∈ records xs, r.Within (Bound xs) := by
  intro r hr z hz
  obtain ⟨x, hx, hlive⟩ := List.mem_filterMap.mp hr
  obtain ⟨_, hstep⟩ := hxs x hx
  obtain ⟨b, hb, hplace, hlength⟩ := hstep.bound hlive
  exact ⟨b, mem_bindings hx hb, r.address, hplace, hz.1, hlength ▸ hz.2⟩

theorem bindings_blank (xs : List Setting) : bindings (xs.map blank) = bindings xs := by
  rw [bindings, List.filterMap_map]
  rfl

end Setting

namespace Program

/-- A run that leaves `on` alone, and so will what it recorded. -/
structure Spares (on : Address → Prop) (g : Program) (settings : List Setting) (s : Site) :
    Prop where
  memory : s.host.memory.Spared on (g.run settings [] s).2.2.host.memory
  changes : ∀ c ∈ (g.run settings [] s).2.1, c.Spares on

variable {on : Address → Prop} {g : Program} {settings : List Setting} {s s' : Site}

theorem Spares.of_run {o : Outcome} {cs : List Change} (hg : g.Spares on settings s)
    (hrun : g.run settings [] s = (o, cs, s')) :
    s.host.memory.Spared on s'.host.memory ∧ ∀ c ∈ cs, c.Spares on := by
  obtain ⟨hmemory, hchanges⟩ := hg
  rw [hrun] at hmemory hchanges
  exact ⟨hmemory, hchanges⟩

theorem Spares.of_isEmpty
    (hmemory : s.host.memory.Spared on (g.run settings [] s).2.2.host.memory)
    (hnone : (g.run settings [] s).2.1.isEmpty = true) : g.Spares on settings s where
  memory := hmemory
  changes := by
    rw [List.isEmpty_iff.mp hnone]
    exact List.forall_mem_nil _

end Program

namespace Patch

/-! ## Who writes where -/

def InstallSpares (on : Address → Prop) (p : Patch) (s : Site) : Prop :=
  p.enabled = false → ∀ q s', p.clearLeftovers s = (.ok (), q, s') →
    q.metadata.versions.contains s'.resolver.version = true →
      (q.body.install q.installs).Spares on q.settings s'

def UpdateSpares (on : Address → Prop) (p : Patch) (s : Site) : Prop :=
  p.enabled = true → ∀ xs s', Setting.writePending p.name p.settings s = (xs, s') →
    (p.body.update p.updates).Spares on xs s'

/-- A section is loaded without a write to `on`, apart from those of the settings. -/
def RestoreSpares (on : Address → Prop) (p : Patch) (saved : Section) (s : Site) : Prop :=
  saved.enabled = some true → ∀ q s', p.restoreSettings saved.settings s = (q, s') →
    q.touch.InstallSpares on s'

end Patch

def Manager.RestoreSpares (on : Address → Prop) : Toml.Document → Manager → Host → Prop
  | [], _, _ => True
  | (name, v) :: d, m, h =>
    (∀ saved, Section.ofToml? v = some saved → ∀ p, m.find? name = some p →
      p.RestoreSpares on saved ⟨m.resolver, h⟩) ∧
      RestoreSpares on d (m.restoreSection name v h).2.1 (m.restoreSection name v h).2.2

namespace Patch

variable {xs₀ : List Setting} {m₀ g m : Memory} {p q : Patch} {s : Site}

/-! ## The invariant -/

/-- The patch has the settings `xs₀`, by whatever values within bounds. Beneath their writes, what
they are bound to is as it was in `m₀`, and the changes of the patch will not write there. -/
structure Mirrors (xs₀ : List Setting) (m₀ : Memory) (p : Patch) (m : Memory) : Prop where
  same : p.settings.map Setting.blank = xs₀.map Setting.blank
  inBounds : p.InBounds
  settings : ∀ x ∈ p.settings, x.InStep p.enabled
  beneath : ∃ g, Rewrites g (Setting.records p.settings) m ∧ m₀.Spared (Setting.Bound xs₀) g
  changes : ∀ c ∈ p.changes, c.Spares (Setting.Bound xs₀)

theorem apart_of_same (hsame : p.settings.map Setting.blank = xs₀.map Setting.blank)
    (hap : Setting.Apart xs₀) : Setting.Apart p.settings := by
  rw [Setting.Apart, ← Setting.bindings_blank, hsame, Setting.bindings_blank]
  exact hap

theorem bound_of_same (hsame : p.settings.map Setting.blank = xs₀.map Setting.blank) :
    Setting.Bound p.settings = Setting.Bound xs₀ := by
  have hbindings : Setting.bindings p.settings = Setting.bindings xs₀ := by
    rw [← Setting.bindings_blank, hsame, Setting.bindings_blank]
  funext z
  rw [Setting.Bound, Setting.Bound, hbindings]

namespace Mirrors

theorem ofBody (metadata : Metadata) {b : Body} (hb : ∀ x ∈ b.settings, x.Anchored) (m : Memory) :
    Mirrors b.settings m (.ofBody metadata b) m where
  same := rfl
  inBounds x hx := (hb x hx).inBounds
  settings x hx := (hb x hx).inStep
  beneath := by
    have hnone : Setting.records b.settings = [] :=
      List.filterMap_eq_nil_iff.mpr fun x hx ↦ (hb x hx).inStep.live_eq_none
    refine ⟨m, ?_, .refl m⟩
    simp only [Patch.ofBody, hnone]
    exact .nil m
  changes := List.forall_mem_nil _

/-- Other fields do not matter. -/
theorem congr (hp : p.Mirrors xs₀ m₀ m) (hsettings : q.settings = p.settings)
    (henabled : q.enabled = p.enabled)
    (hchanges : ∀ c ∈ q.changes, c.Spares (Setting.Bound xs₀)) : q.Mirrors xs₀ m₀ m where
  same := by rw [hsettings, hp.same]
  inBounds := by rw [InBounds, hsettings]; exact hp.inBounds
  settings := by rw [hsettings, henabled]; exact hp.settings
  beneath := by rw [hsettings]; exact hp.beneath
  changes := hchanges

theorem within (hp : p.Mirrors xs₀ m₀ m) :
    ∀ r ∈ Setting.records p.settings, r.Within (Setting.Bound xs₀) := by
  rw [← bound_of_same hp.same]
  exact Setting.within_bound fun x hx ↦ ⟨_, hp.settings x hx⟩

theorem disjoint (hp : p.Mirrors xs₀ m₀ m) (hap : Setting.Apart xs₀) :
    (Setting.records p.settings).Pairwise UndoRecord.Disjoint :=
  (apart_of_same hp.same hap).disjoint fun x hx ↦ ⟨_, hp.settings x hx⟩

/-- Whatever else is done to memory, the settings are where they were. -/
theorem spared {m' : Memory} (hp : p.Mirrors xs₀ m₀ m) (hs : m.Spared (Setting.Bound xs₀) m') :
    p.Mirrors xs₀ m₀ m' where
  same := hp.same
  inBounds := hp.inBounds
  settings := hp.settings
  beneath := by
    obtain ⟨g, hw, hg⟩ := hp.beneath
    obtain ⟨g', hw', hg'⟩ := hw.beneath_spared hp.within hs
    exact ⟨g', hw', hg.trans hg'⟩
  changes := hp.changes

theorem records_of_disabled (hp : p.Mirrors xs₀ m₀ m) (hdisabled : p.enabled = false) :
    Setting.records p.settings = [] :=
  List.filterMap_eq_nil_iff.mpr fun x hx ↦ (hdisabled ▸ hp.settings x hx).live_eq_none

/-- The bytes that a setting is bound to. -/
theorem bytes_eq (hp : p.Mirrors xs₀ m₀ m) (hap : Setting.Apart xs₀) {x : Setting}
    (hx : x ∈ p.settings) {b : Setting.Binding} {a : Address} (hb : x.binding = some b)
    (hplace : b.place = .fixed a) :
    m.bytes a b.width.length =
      if p.enabled then b.width.encode x.value else m₀.bytes a b.width.length := by
  have hstep := hp.settings x hx
  cases henabled : p.enabled with
  | false =>
      obtain ⟨g, hw, hs⟩ := hp.beneath
      rw [hp.records_of_disabled henabled] at hw
      cases hw
      have hmem := Setting.mem_bindings hx hb
      rw [if_neg (by decide)]
      refine Memory.bytes_congr fun z hz hlt ↦ hs.byte z ?_
      rw [← bound_of_same hp.same]
      exact ⟨b, hmem, a, hplace, hz, hlt⟩
  | true =>
      rw [henabled] at hstep
      cases hstep with
      | unbound _ hbinding _ => cases hbinding.symm.trans hb
      | on _ hbinding hplace' hafter hlive =>
          cases hbinding.symm.trans hb
          cases hplace'.symm.trans hplace
          obtain ⟨g, hw, -⟩ := hp.beneath
          have hr := List.mem_filterMap.mpr ⟨x, hx, hlive⟩
          have hbytes := hw.bytes_eq (hp.disjoint hap) hr
          rwa [hafter, Setting.Width.length_encode] at hbytes

/-! ## Installing and uninstalling -/

theorem spared_of_disabled (hp : p.Mirrors xs₀ m₀ m) (hdisabled : p.enabled = false) :
    m₀.Spared (Setting.Bound xs₀) m := by
  obtain ⟨g, hw, hs⟩ := hp.beneath
  rw [hp.records_of_disabled hdisabled] at hw
  cases hw
  exact hs

/-- Settings that were withdrawn leave what was beneath them. -/
theorem of_withdrawn (hsame : p.settings.map Setting.blank = xs₀.map Setting.blank)
    (hkept : p.InBounds) (hsteps : ∀ x ∈ p.settings, ∃ live, x.InStep live)
    (hdisabled : q.enabled = false) (hsettings : q.settings = p.settings.map Setting.withdrawn)
    (hs : m₀.Spared (Setting.Bound xs₀) m)
    (hchanges : ∀ c ∈ q.changes, c.Spares (Setting.Bound xs₀)) : q.Mirrors xs₀ m₀ m := by
  have htwice : q.settings.map Setting.withdrawn = p.settings.map Setting.withdrawn := by
    rw [hsettings, List.map_map]
    rfl
  refine ⟨?_, ?_, ?_, ⟨m, ?_, hs⟩, hchanges⟩
  · rw [Setting.map_blank_eq htwice, hsame]
  · exact Setting.inBounds_of_map hkept htwice
  · rw [hsettings, hdisabled]
    intro y hy
    obtain ⟨x, hx, rfl⟩ := List.mem_map.mp hy
    obtain ⟨_, hstep⟩ := hsteps x hx
    exact hstep.withdrawn
  · rw [hsettings, (Setting.unwritten_withdrawn p.settings).records_eq]
    exact .nil m

/-- What an attempt has done to the settings is undone without fail. -/
theorem abandon (hap : Setting.Apart xs₀) (hdisabled : p.enabled = false)
    (hsame : p.settings.map Setting.blank = xs₀.map Setting.blank) (hkept : p.InBounds)
    (hsteps : ∀ x ∈ p.settings, ∃ live, x.InStep live)
    (hw : Rewrites g (Setting.records p.settings) s.host.memory)
    (hs : m₀.Spared (Setting.Bound xs₀) g)
    (hold : ∀ c ∈ p.changes, c.Spares (Setting.Bound xs₀)) {cs : List Change}
    (hcs : ∀ c ∈ cs, c.Spares (Setting.Bound xs₀)) (e : PatchError) :
    (p.abandon cs e s).2.1.Mirrors xs₀ m₀ (p.abandon cs e s).2.2.host.memory := by
  have hrestore := Setting.restoreAll_eq_ok
    (hw.unwinds.inOrder ((apart_of_same hsame hap).disjoint hsteps))
  obtain ⟨r, cs', h₁, hrevert, hcs', hs'⟩ := Change.revertAll_spared hcs (s.host.withMemory g)
  have hreverted := hs.trans hs'
  unfold Patch.abandon
  simp only [hrestore, hrevert]
  cases r with
  | ok u =>
      have hreleased (level : LogLevel) (message : String) :=
        hreverted.trans (Change.releaseAll_spared hcs' (h₁.note level message))
      exact of_withdrawn hsame hkept hsteps hdisabled rfl (hreleased _ _) hold
  | error e => exact of_withdrawn hsame hkept hsteps hdisabled rfl hreverted hcs'

/-- An attempt writes all values, or it takes back those that it wrote. -/
theorem attempt (hp : p.Mirrors xs₀ m₀ s.host.memory) (hap : Setting.Apart xs₀)
    (hdisabled : p.enabled = false)
    (hspares : (p.body.install p.installs).Spares (Setting.Bound xs₀) p.settings s) :
    (p.attempt s).2.1.Mirrors xs₀ m₀ (p.attempt s).2.2.host.memory := by
  rcases hrun : (p.body.install p.installs).run p.settings [] s with ⟨o, cs, s₁⟩
  obtain ⟨hmemory, hcs⟩ := hspares.of_run hrun
  have hran := hp.spared hmemory
  have hfailed (e : PatchError) :
      (Patch.abandon { p with installs := p.installs + 1 } cs e s₁).2.1.Mirrors xs₀ m₀
        (Patch.abandon { p with installs := p.installs + 1 } cs e s₁).2.2.host.memory := by
    obtain ⟨g, hw, hs⟩ := hran.beneath
    exact abandon (p := { p with installs := p.installs + 1 }) hap hdisabled hp.same hp.inBounds
      (fun x hx ↦ ⟨_, hp.settings x hx⟩) hw hs hp.changes hcs e
  unfold Patch.attempt
  rw [hrun]
  cases o with
  | failed e => exact hfailed e
  | aborted message => exact hfailed (.aborted message)
  | done =>
      have hs := hran.spared_of_disabled hdisabled
      obtain ⟨r, ys, s₂, m, hwrite, -, hsteps, hon, hw, hcalm⟩ :=
        Setting.writeAll_of_off (hdisabled ▸ hp.settings) s₁
      have hkept := Setting.map_withdrawn_writeAll p.settings s₁
      rw [hwrite] at hkept
      have hsame := (Setting.map_blank_eq hkept).trans hp.same
      have hinBounds := Setting.inBounds_of_map hp.inBounds hkept
      have hwritten : s₂.host.memory = m := hcalm.memory
      rw [← hwritten] at hw
      simp only [Outcome.toExcept, hwrite]
      cases r with
      | error e =>
          exact abandon (p := { p with installs := p.installs + 1, settings := ys }) hap hdisabled
            hsame hinBounds hsteps hw hs hp.changes hcs (.setting e)
      | ok u => exact ⟨hsame, hinBounds, hon rfl, ⟨s₁.host.memory, hw, hs⟩, hcs⟩

theorem clearLeftovers (hp : p.Mirrors xs₀ m₀ s.host.memory) :
    (p.clearLeftovers s).2.1.Mirrors xs₀ m₀ (p.clearLeftovers s).2.2.host.memory ∧
      (p.clearLeftovers s).2.1.enabled = p.enabled := by
  obtain ⟨r, cs, h₁, hrevert, hcs, hs⟩ := Change.revertAll_spared hp.changes s.host
  unfold Patch.clearLeftovers
  rw [hrevert]
  cases r with
  | ok u =>
      have hreleased := hs.trans (Change.releaseAll_spared hcs h₁)
      exact ⟨(hp.spared hreleased).congr rfl rfl (List.forall_mem_nil _), rfl⟩
  | error e => exact ⟨(hp.spared hs).congr rfl rfl hcs, rfl⟩

theorem install (hp : p.Mirrors xs₀ m₀ s.host.memory) (hap : Setting.Apart xs₀)
    (hspares : p.InstallSpares (Setting.Bound xs₀) s) :
    (p.install s).2.1.Mirrors xs₀ m₀ (p.install s).2.2.host.memory := by
  obtain ⟨hq, henabled⟩ := hp.clearLeftovers
  unfold Patch.install
  split
  · exact hp
  · rename_i hdisabled
    rw [Bool.not_eq_true] at hdisabled
    rcases heq : p.clearLeftovers s with ⟨e | u, q, s₁⟩
    all_goals rw [heq] at hq henabled
    · exact hq.congr rfl rfl hq.changes
    · simp only
      split
      · rename_i hversion
        exact hq.attempt hap (henabled.trans hdisabled) (hspares hdisabled q s₁ heq hversion)
      · exact hq.congr rfl rfl hq.changes

/-- Undoing a patch takes its settings out of memory, or they are all written again. -/
theorem undo (hp : p.Mirrors xs₀ m₀ s.host.memory) (hap : Setting.Apart xs₀) :
    ∃ r q s', p.undo s = (r, q, s') ∧
      (r = .ok () → Mirrors xs₀ m₀ { q with enabled := false } s'.host.memory) ∧
      ∀ e, r = .error e → q.Mirrors xs₀ m₀ s'.host.memory := by
  have hsteps : ∀ x ∈ p.settings, ∃ live, x.InStep live := fun x hx ↦ ⟨_, hp.settings x hx⟩
  obtain ⟨g, hw, hs⟩ := hp.beneath
  have hrestore := Setting.restoreAll_eq_ok (hw.unwinds.inOrder (hp.disjoint hap))
  obtain ⟨r, cs, h₁, hrevert, hcs, hs'⟩ :=
    Change.revertAll_spared hp.changes (s.host.withMemory g)
  have hreverted := hs.trans hs'
  unfold Patch.undo
  simp only [hrestore, uninstallChanges, hrevert]
  cases r with
  | ok u =>
      have hreleased := hreverted.trans (Change.releaseAll_spared hcs h₁)
      refine ⟨_, _, _, rfl, fun _ ↦ ?_, fun e he ↦ ?_⟩
      · exact of_withdrawn hp.same hp.inBounds hsteps rfl rfl hreleased (List.forall_mem_nil _)
      · cases he
  | error e =>
      cases henabled : p.enabled with
      | false =>
          refine ⟨_, _, _, rfl, fun hr ↦ ?_, fun _ _ ↦ ?_⟩
          · cases hr
          · exact of_withdrawn hp.same hp.inBounds hsteps rfl rfl hreverted hcs
      | true =>
          -- beneath the settings nothing has changed that they are bound to
          obtain ⟨m, hw', -⟩ := hw.of_spared hp.within hs'
          have hon := hp.settings
          rw [henabled] at hon
          obtain ⟨s', hwrite, hcalm⟩ :=
            Setting.writeAll_withdrawn (s := { s with host := h₁ }) hon hw'
          have hwritten : s'.host.memory = m := hcalm.memory
          rw [← hwritten] at hw'
          simp only [if_true, hwrite]
          refine ⟨_, _, _, rfl, fun hr ↦ ?_, fun _ _ ↦ ?_⟩
          · cases hr
          · exact ⟨hp.same, hp.inBounds, hon, ⟨h₁.memory, hw', hreverted⟩, hcs⟩

theorem uninstall (hp : p.Mirrors xs₀ m₀ s.host.memory) (hap : Setting.Apart xs₀) :
    (p.uninstall s).2.1.Mirrors xs₀ m₀ (p.uninstall s).2.2.host.memory := by
  unfold Patch.uninstall
  split
  · exact hp
  · obtain ⟨r, q, s', heq, hok, herror⟩ := hp.undo hap
    rw [heq]
    cases r with
    | error e => exact (herror e rfl).congr rfl rfl (herror e rfl).changes
    | ok u =>
        have hdone : Mirrors xs₀ m₀ { q with enabled := false, lastError := none }
            s'.host.memory := (hok rfl).congr rfl rfl (hok rfl).changes
        have hsame := (farewell_quiet { q with enabled := false, lastError := none } s').memory
        rw [← hsame] at hdone
        exact hdone

/-! ## Updating and changing settings -/

/-- No setting waits, so that an update comes down to the run of its body. -/
theorem update (hp : p.Mirrors xs₀ m₀ s.host.memory)
    (hspares : p.UpdateSpares (Setting.Bound xs₀) s) :
    (p.update s).1.Mirrors xs₀ m₀ (p.update s).2.host.memory := by
  unfold Patch.update
  split
  · rename_i henabled
    have hwritten := Setting.writePending_eq hp.settings p.name s
    rcases hrun : (p.body.update p.updates).run p.settings [] s with ⟨o, cs, s₁⟩
    obtain ⟨hmemory, hcs⟩ := (hspares henabled _ _ hwritten).of_run hrun
    have hran := hp.spared hmemory
    simp only [hwritten, hrun]
    split
    · exact hran.congr rfl rfl (List.forall_mem_append.mpr ⟨hp.changes, hcs⟩)
    · obtain ⟨r, cs', h₂, hrevert, hcs', hs⟩ := Change.revertAll_spared hcs s₁.host
      simp only [hrevert]
      cases r with
      | ok u =>
          have hreleased := hs.trans (Change.releaseAll_spared hcs' h₂)
          exact (hran.spared hreleased).congr rfl rfl hp.changes
      | error e =>
          exact (hran.spared hs).congr rfl rfl (List.forall_mem_append.mpr ⟨hp.changes, hcs'⟩)
  · exact hp

/-- A value that is given takes the place of the old one in memory if the patch is enabled. -/
theorem setSetting (hp : p.Mirrors xs₀ m₀ s.host.memory) (hap : Setting.Apart xs₀) (name : String)
    (v : Setting.Value) :
    (p.setSetting name v s).2.1.Mirrors xs₀ m₀ (p.setSetting name v s).2.2.host.memory := by
  cases hnamed : Setting.named? p.settings name with
  | none =>
      rw [setSetting_of_none hnamed]
      exact hp
  | some x =>
      have hinBounds := setSetting_inBounds hp.inBounds name v s
      obtain ⟨front, back, r, y, s', m, hsplit, heq, -, hcourse, hquiet⟩ :=
        setSetting_course hnamed v s
      rw [heq] at hinBounds ⊢
      have hsame : (front ++ y :: back).map Setting.blank = xs₀.map Setting.blank := by
        rw [← hp.same, hsplit, List.map_append, List.map_append, List.map_cons, List.map_cons,
          hcourse.blank_eq (hp.inBounds.kept x hnamed)]
      have hsteps : ∀ z ∈ front ++ y :: back, z.InStep p.enabled := by
        obtain ⟨r', ys, s₁, m₁, hchange, hys, -, -⟩ :=
          Setting.changeFirst_cases hp.settings (fun z hz _ ↦ (hp.inBounds z hz).value) v s
        have hsettings : (p.setSetting name v s).2.1.settings = ys := by
          unfold Patch.setSetting
          rw [hchange]
          cases r' <;> rfl
        rw [heq] at hsettings
        rw [show front ++ y :: back = ys from hsettings]
        exact hys
      have hd := hp.disjoint hap
      have hd' : (Setting.records (front ++ y :: back)).Pairwise UndoRecord.Disjoint :=
        (apart_of_same (p := { p with settings := front ++ y :: back }) hsame hap).disjoint
          fun z hz ↦ ⟨_, hsteps z hz⟩
      obtain ⟨g, hw, hs⟩ := hp.beneath
      rw [hsplit] at hw hd
      have hwritten : s'.host.memory = m := hquiet.memory
      refine ⟨hsame, hinBounds, hsteps, ⟨g, ?_, hs⟩, hp.changes⟩
      rw [hwritten]
      exact hcourse.rewrites_among hw hd hd'

/-! ## Loading -/

theorem restoreSettings (hp : p.Mirrors xs₀ m₀ s.host.memory) (hap : Setting.Apart xs₀)
    (es : List (String × Toml.Value)) :
    (p.restoreSettings es s).1.Mirrors xs₀ m₀ (p.restoreSettings es s).2.host.memory := by
  induction es generalizing p s with
  | nil => exact hp
  | cons e es ih =>
      obtain ⟨key, v⟩ := e
      rw [Patch.restoreSettings]
      split
      · exact ih (s := s.note _ _) hp
      · split
        · exact ih (s := s.note _ _) hp
        · rename_i w _
          have hset := hp.setSetting hap key w
          rcases heq : p.setSetting key w s with ⟨e | u, p₁, s₁⟩
          all_goals rw [heq] at hset
          · exact ih (s := s₁.note _ _) hset
          · exact ih hset

theorem restore (hp : p.Mirrors xs₀ m₀ s.host.memory) (hap : Setting.Apart xs₀) (saved : Section)
    (hspares : p.RestoreSpares (Setting.Bound xs₀) saved s) :
    (p.restore saved s).1.Mirrors xs₀ m₀ (p.restore saved s).2.host.memory := by
  have hset := hp.restoreSettings hap saved.settings
  unfold Patch.restore
  rcases heq : p.restoreSettings saved.settings s with ⟨q, s₁⟩
  rw [heq] at hset
  have htouched : q.touch.Mirrors xs₀ m₀ s₁.host.memory := hset.congr rfl rfl hset.changes
  simp only
  split
  · exact hset
  · rename_i htrue
    exact htouched.install hap (hspares htrue q s₁ heq)
  · exact htouched.uninstall hap

end Mirrors

end Patch

namespace Manager

variable {xs₀ : List Setting} {m₀ : Memory} {m : Manager} {h : Host} {p : Patch}

/-- A manager of one patch restores that, or leaves it as it is. -/
theorem restoreSection_mirrors (hm : m.patches = [p]) (hp : p.Mirrors xs₀ m₀ h.memory)
    (hap : Setting.Apart xs₀) (name : String) (v : Toml.Value)
    (hspares : ∀ saved, Section.ofToml? v = some saved → ∀ q, m.find? name = some q →
      q.RestoreSpares (Setting.Bound xs₀) saved ⟨m.resolver, h⟩) :
    ∃ q, (m.restoreSection name v h).2.1.patches = [q] ∧
      q.Mirrors xs₀ m₀ (m.restoreSection name v h).2.2.memory := by
  unfold restoreSection
  split
  · exact ⟨p, hm, hp⟩
  · rename_i saved hsection
    rw [act, hm, actFirst]
    by_cases hname : p.name = name
    · have hfind : m.find? name = some p := by simp [find?, hm, hname]
      have hrestored := Patch.Mirrors.restore (s := ⟨m.resolver, h⟩) hp hap saved
        (hspares saved hsection p hfind)
      simp only [if_pos hname]
      exact ⟨_, rfl, hrestored⟩
    · simp only [if_neg hname, actFirst]
      exact ⟨p, rfl, hp⟩

theorem restoreSections_mirrors (d : Toml.Document) (hm : m.patches = [p])
    (hp : p.Mirrors xs₀ m₀ h.memory) (hap : Setting.Apart xs₀)
    (hspares : RestoreSpares (Setting.Bound xs₀) d m h) :
    ∃ q, (m.restoreSections d h).2.1.patches = [q] ∧
      q.Mirrors xs₀ m₀ (m.restoreSections d h).2.2.memory := by
  induction d generalizing m h p with
  | nil => exact ⟨p, hm, hp⟩
  | cons e d ih =>
      obtain ⟨name, v⟩ := e
      obtain ⟨hfirst, hrest⟩ := hspares
      obtain ⟨q, hm', hq⟩ := restoreSection_mirrors hm hp hap name v hfirst
      exact ih hm' hq hrest

end Manager

namespace Patch

variable {xs₀ : List Setting} {m₀ : Memory} {p : Patch} {s : Site}

/-! ## Whole runs -/

def alone (p : Patch) (resolver : Resolver) : Manager := ⟨resolver, none, [p]⟩

def load (p : Patch) (text : String) (s : Site) : Patch × Site :=
  match (p.alone s.resolver).load text s.host with
  | (_, m, h) => (m.patches.headD p, ⟨m.resolver, h⟩)

inductive Step where
  | call (c : Call)
  | load (text : String)
  /-- Something else goes on in the process, of the host or of other patches. -/
  | meanwhile (s : Site)

def Step.take : Step → Patch × Site → Patch × Site
  | .call c, now => c.run now.1 now.2
  | .load text, now => now.1.load text now.2
  | .meanwhile s, now => (now.1, s)

/-- Only settings are written to `on`. -/
def Step.Spares (on : Address → Prop) : Step → Patch × Site → Prop
  | .call .install, now => now.1.InstallSpares on now.2
  | .call .update, now => now.1.UpdateSpares on now.2
  | .call .uninstall, _ => True
  | .call (.setSetting _ _), _ => True
  | .load text, now => ∀ d, Toml.Document.read? text = some d →
    Manager.RestoreSpares on d (now.1.alone now.2.resolver) now.2.host
  | .meanwhile s, now => now.2.host.memory.Spared on s.host.memory

/-- A text that can be read is loaded by restoring its sections. -/
theorem load_eq {text : String} {d : Toml.Document} (hread : Toml.Document.read? text = some d)
    (p : Patch) (s : Site) :
    p.load text s = (((p.alone s.resolver).restore d s.host).2.1.patches.headD p,
      ⟨((p.alone s.resolver).restore d s.host).2.1.resolver,
        ((p.alone s.resolver).restore d s.host).2.2⟩) := by
  simp only [Patch.load, Manager.load, hread]

theorem Mirrors.load (hp : p.Mirrors xs₀ m₀ s.host.memory) (hap : Setting.Apart xs₀) (text : String)
    (hspares : ∀ d, Toml.Document.read? text = some d →
      Manager.RestoreSpares (Setting.Bound xs₀) d (p.alone s.resolver) s.host) :
    (p.load text s).1.Mirrors xs₀ m₀ (p.load text s).2.host.memory := by
  cases hread : Toml.Document.read? text with
  | none =>
      simp only [Patch.load, Manager.load, hread]
      exact hp
  | some d =>
      obtain ⟨q, hm, hq⟩ := Manager.restoreSections_mirrors d rfl hp hap (hspares d hread)
      simp only [load_eq hread, Manager.restore, hm]
      exact hq

theorem Mirrors.take (hp : p.Mirrors xs₀ m₀ s.host.memory) (hap : Setting.Apart xs₀) (t : Step)
    (hspares : t.Spares (Setting.Bound xs₀) (p, s)) :
    (t.take (p, s)).1.Mirrors xs₀ m₀ (t.take (p, s)).2.host.memory := by
  cases t with
  | call c =>
      cases c with
      | install => exact hp.install hap hspares
      | uninstall => exact hp.uninstall hap
      | update => exact hp.update hspares
      | setSetting name v => exact hp.setSetting hap name v
  | load text => exact hp.load hap text hspares
  | meanwhile s => exact hp.spared hspares

def walk : List Step → Patch × Site → Patch × Site
  | [], now => now
  | t :: ts, now => walk ts (t.take now)

theorem walk_concat (ts : List Step) (t : Step) (now : Patch × Site) :
    walk (ts ++ [t]) now = t.take (walk ts now) := by
  induction ts generalizing now with
  | nil => rfl
  | cons u ts ih => exact ih (u.take now)

theorem Mirrors.walk (hp : p.Mirrors xs₀ m₀ s.host.memory) (hap : Setting.Apart xs₀)
    (ts : List Step) (hspares : ∀ front t, front ++ [t] <+: ts →
      t.Spares (Setting.Bound xs₀) (Patch.walk front (p, s))) :
    ∀ front, front <+: ts →
      (Patch.walk front (p, s)).1.Mirrors xs₀ m₀ (Patch.walk front (p, s)).2.host.memory := by
  induction ts generalizing p s with
  | nil =>
      intro front hfront
      rw [List.prefix_nil.mp hfront]
      exact hp
  | cons t ts ih =>
      rw [forall_turn_cons] at hspares
      rw [forall_prefix_cons]
      exact ⟨hp, ih (hp.take hap t hspares.1) hspares.2⟩

/-- Whatever a patch goes through, as long as nothing but its settings is written to what they are
bound to: their values are within bounds, and they are in memory exactly while the patch is enabled.
While it is disabled, memory there is what it was at the start. -/
theorem settings_mirrored (metadata : Metadata) (b : Body) (hb : ∀ x ∈ b.settings, x.Anchored)
    (hap : Setting.Apart b.settings) (s₀ : Site) (ts : List Step)
    (hspares : ∀ front t, front ++ [t] <+: ts →
      t.Spares (Setting.Bound b.settings) (walk front (ofBody metadata b, s₀))) :
    ∀ front, front <+: ts →
      let now := walk front (ofBody metadata b, s₀)
      now.1.settings.map Setting.blank = b.settings.map Setting.blank ∧
        ∀ x ∈ now.1.settings, x.kind.clamp? x.value = some x.value ∧
          ∀ c a, x.binding = some c → c.place = .fixed a →
            now.2.host.memory.bytes a c.width.length =
              if now.1.enabled then c.width.encode x.value
              else s₀.host.memory.bytes a c.width.length := by
  intro front hfront now
  have hnow := (Mirrors.ofBody metadata hb s₀.host.memory).walk hap ts hspares front hfront
  refine ⟨hnow.same, fun x hx ↦ ⟨(hnow.inBounds x hx).value, fun c a hc hplace ↦ ?_⟩⟩
  exact hnow.bytes_eq hap hx hc hplace

/-- A body with two settings, which writes elsewhere when it is installed and in each update, which
fails after that. -/
def leveled : Body where
  settings := [(Setting.int "Level" 3 0 9).bind ⟨.fixed 0, .u8⟩,
    (Setting.choice "Mode" 0 ["Off", "On", "Auto"]).bind ⟨.fixed 4, .i32⟩]
  install _ := .transaction (.write (.bytes 16 [170]) fun _ ↦ .done) (Program.after .done)
  update _ := .transaction (.write (.bytes 32 [187]) fun _ ↦ .fail (.other "not yet"))
    (Program.after .done)
  farewell := none
  farewellAborts := false
  customUi := false

theorem anchored_leveled : ∀ x ∈ leveled.settings, x.Anchored := by
  refine List.forall_mem_cons.mpr ⟨.bind 0 .u8 (.int ..), List.forall_mem_singleton.mpr ?_⟩
  exact .bind 4 .i32 (.choice ..)

theorem apart_leveled : Setting.Apart leveled.settings := by
  refine List.pairwise_pair.mpr fun a a' ha ha' ↦ ?_
  cases ha
  cases ha'
  decide

theorem bound_leveled {z : Nat} (hz : Setting.Bound leveled.settings z) :
    z ∈ [0, 4, 5, 6, 7] := by
  obtain ⟨b, hb, a, hplace, hle, hlt⟩ := hz
  have hbindings : Setting.bindings leveled.settings = [⟨.fixed 0, .u8⟩, ⟨.fixed 4, .i32⟩] := rfl
  rw [hbindings] at hb
  rcases List.mem_pair.mp hb with rfl | rfl
  all_goals
    cases hplace
    simp only [Setting.Width.length, Address] at hle hlt
    simp only [List.mem_cons, List.not_mem_nil]
    omega

/-- To tell whether memory was spared there, five bytes and their pages have to be compared. -/
theorem spared_leveled {m m' : Memory}
    (hsame : ∀ z ∈ [0, 4, 5, 6, 7], m'.page (z / pageSize) = m.page (z / pageSize) ∧
      m'.byte z = m.byte z) : m.Spared (Setting.Bound leveled.settings) m' :=
  ⟨fun z hz ↦ (hsame z (bound_leveled hz)).1, fun z hz ↦ (hsame z (bound_leveled hz)).2⟩

theorem changes_leveled :
    ((leveled.install 0).run leveled.settings [] ⟨.new .unknown ⟨0, 0⟩, .onePage⟩).2.1 =
      [.writes ⟨[⟨16, [0], [170], rfl⟩], .committed⟩] :=
  rfl

def leveledSteps : List Step :=
  [.call .install, .call (.setSetting "Level" (.int 42)), .call .update]

def leveledText : String :=
  "[A]\nEnabled = false\n\n[A.Settings]\nLevel = -5\nMode = \"auto\"\n"

def leveledDocument : Toml.Document := [("A", .table [("Enabled", .boolean false),
  ("Settings", .table [("Level", .integer (-5)), ("Mode", .string "auto")])])]

theorem read_leveled : Toml.Document.read? leveledText = some leveledDocument := by
  rw [leveledText, leveledDocument]
  decide +kernel

theorem spares_leveled : ∀ front t, front ++ [t] <+: leveledSteps ++ [.load leveledText] →
    t.Spares (Setting.Bound leveled.settings)
      (walk front (ofBody (.named "A") leveled, ⟨.new .unknown ⟨0, 0⟩, .onePage⟩)) := by
  simp only [leveledSteps, List.cons_append, List.nil_append, forall_turn_cons]
  refine ⟨fun _ q s' hcleared _ ↦ ?_, trivial, fun _ xs s' hpending ↦ ?_, fun d hd ↦ ?_,
    forall_turn_nil⟩
  · cases hcleared
    refine ⟨spared_leveled (by decide +kernel), ?_⟩
    change ∀ c ∈ ((leveled.install 0).run leveled.settings []
      ⟨.new .unknown ⟨0, 0⟩, .onePage⟩).2.1, Change.Spares _ c
    rw [changes_leveled, List.forall_mem_singleton]
    refine List.forall_mem_singleton.mpr fun z hz hbound ↦ ?_
    have hlow : ∀ y ∈ [0, 4, 5, 6, 7], y < 16 := by decide
    exact Nat.not_le.mpr (hlow z (bound_leveled hbound)) hz.1
  · obtain rfl := congrArg Prod.fst hpending
    obtain rfl := congrArg Prod.snd hpending
    exact .of_isEmpty (spared_leveled (by decide +kernel)) (by decide +kernel)
  · -- the document disables the patch, so that nothing is installed
    obtain rfl := Option.some.inj (read_leveled.symm.trans hd)
    refine ⟨fun saved hsection p _ hinstall ↦ ?_, trivial⟩
    obtain rfl := Option.some.inj hsection
    cases hinstall

/-- A value beyond its bounds is brought within them, whether it is asked for or stands in a
document. What the document says of the settings is written before it disables the patch. -/
theorem settings_mirrored_leveled :
    let s : Site := ⟨.new .unknown ⟨0, 0⟩, .onePage⟩
    let kept := walk leveledSteps (ofBody (.named "A") leveled, s)
    let loaded := walk (leveledSteps ++ [.load leveledText]) (ofBody (.named "A") leveled, s)
    (kept.1.setting "Level" = some (.int 9) ∧ kept.1.lastError.isSome ∧
        kept.2.host.memory.bytes 0 1 = [9]) ∧
      loaded.1.setting "Level" = some (.int 0) ∧ loaded.1.setting "Mode" = some (.choice 2) ∧
        loaded.2.host.memory.bytes 0 1 = s.host.memory.bytes 0 1 := by
  intro s kept loaded
  have hwalk : loaded = walk (leveledSteps ++ [.load leveledText])
    (ofBody (.named "A") leveled, s) := rfl
  have hloads := hwalk.trans ((walk_concat ..).trans (load_eq read_leveled kept.1 kept.2))
  have hall := settings_mirrored (.named "A") leveled anchored_leveled apart_leveled s _
    spares_leveled
  obtain ⟨-, hkept⟩ := hall leveledSteps (List.prefix_append ..)
  obtain ⟨-, hloaded⟩ := hall _ (List.prefix_refl _)
  -- from here on the text is not read again
  rw [← hwalk] at hloaded
  clear_value loaded
  let x : Setting := (Setting.int "Level" 3 0 9).bind ⟨.fixed 0, .u8⟩
  have hx : kept.2.host.memory.bytes 0 1 =
      if kept.1.enabled then [9] else s.host.memory.bytes 0 1 :=
    (hkept { x with value := .int 9, live := some ⟨0, [0], [9], rfl⟩ } (by decide +kernel)).2
      ⟨.fixed 0, .u8⟩ 0 rfl rfl
  have hmem : { x with value := .int 0 } ∈ loaded.1.settings := by
    rw [hloads]
    decide +kernel
  have hy : loaded.2.host.memory.bytes 0 1 =
      if loaded.1.enabled then [0] else s.host.memory.bytes 0 1 :=
    (hloaded _ hmem).2 ⟨.fixed 0, .u8⟩ 0 rfl rfl
  have hdisabled : loaded.1.enabled = false := by
    rw [hloads]
    decide +kernel
  refine ⟨⟨by decide +kernel, by decide +kernel, hx.trans (if_pos (by decide +kernel))⟩, ?_, ?_,
    hy.trans (if_neg (Bool.eq_false_iff.mp hdisabled))⟩
  all_goals
    rw [hloads]
    decide +kernel

end Patch

end HotPatch
