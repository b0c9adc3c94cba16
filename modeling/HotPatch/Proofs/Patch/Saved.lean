import HotPatch.Manager.Saved
import HotPatch.Proofs.Patch.Keeping
import HotPatch.Proofs.Setting.Saved
import HotPatch.Proofs.Toml.Entries

/-!
# What a document says of a patch

A patch is saved by what its settings hold and whether it is enabled. A new patch that is brought to
that state has the same to save.
-/

namespace HotPatch

/-! ## Lists -/

/-- Where no key comes up twice, no other member has the key of `a`. -/
theorem key_ne_of_nodup {α β : Type} {κ : α → β} {a : α} {front back : List α}
    (hnodup : ((front ++ a :: back).map κ).Nodup) : ∀ b ∈ front ++ back, κ b ≠ κ a := by
  rw [List.map_append, List.map_cons, List.nodup_middle, List.nodup_cons, ← List.map_append]
    at hnodup
  exact fun b hb hsame ↦ hnodup.1 (hsame ▸ List.mem_map_of_mem hb)

theorem map_eq_of_map_eq {α β γ δ : Type} {κ : α → γ} {κ' : β → γ} {f : α → δ} {g : β → δ}
    {as : List α} {bs : List β} (h : as.map κ = bs.map κ')
    (hfg : ∀ a ∈ as, ∀ b ∈ bs, κ a = κ' b → f a = g b) : as.map f = bs.map g := by
  induction as generalizing bs with
  | nil =>
      obtain rfl : bs = [] := List.map_eq_nil_iff.mp h.symm
      rfl
  | cons a as ih =>
      obtain ⟨b, bs, rfl, hb, hbs⟩ := List.map_eq_cons_iff.mp h.symm
      rw [List.map_cons, List.map_cons, hfg a List.mem_cons_self b List.mem_cons_self hb.symm,
        ih hbs.symm fun a' ha' b' hb' ↦
          hfg a' (List.mem_cons_of_mem a ha') b' (List.mem_cons_of_mem b hb')]

theorem map_eq_of_forall₂ {α β γ : Type} {f : α → γ} {g : β → γ} {as : List α} {bs : List β}
    (h : List.Forall₂ (fun a b ↦ g b = f a) as bs) : bs.map g = as.map f := by
  refine Eq.symm ?_
  rw [← List.forall₂_eq_eq_eq, List.forall₂_map_left_iff, List.forall₂_map_right_iff]
  exact h.imp fun _ _ hab ↦ hab.symm

theorem forall₂_trans {α β γ : Type} {R : α → β → Prop} {S : β → γ → Prop} {T : α → γ → Prop}
    (h : ∀ a b c, R a b → S b c → T a c) {as : List α} {bs : List β} {cs : List γ}
    (hr : List.Forall₂ R as bs) (hs : List.Forall₂ S bs cs) : List.Forall₂ T as cs := by
  induction hr generalizing cs with
  | nil =>
      cases hs
      exact .nil
  | @cons a b as bs hab _ ih =>
      obtain ⟨c, cs, hbc, hbcs, rfl⟩ := List.forall₂_cons_left_iff.mp hs
      exact .cons (h a b c hab hbc) (ih hbcs)

variable {p p' q : Patch} {x y : Setting} {key : String} {v : Toml.Value} {s : Site}

namespace Patch

/-! ## Saved settings -/

def savedValue? (x : Setting) : Option Toml.Value := if x.isModified then some x.toToml else none

theorem savedSettings_eq (p : Patch) :
    p.savedSettings = Toml.gather (Toml.entriesOf (·.name) savedValue? p.settings) := by
  rw [savedSettings, Toml.gather, Toml.entriesOf, List.foldl_filterMap, List.foldl_filter]
  refine congrArg (fun f ↦ p.settings.foldl f []) (funext fun es ↦ funext fun x ↦ ?_)
  cases hmodified : x.isModified <;> simp [savedValue?, hmodified]

theorem savedSettings_congr
    (hsame : p'.settings.map Setting.withdrawn = p.settings.map Setting.withdrawn) :
    p'.savedSettings = p.savedSettings := by
  rw [savedSettings_eq, savedSettings_eq]
  refine congrArg Toml.gather (Toml.entriesOf_congr ?_)
  have hsaid := congrArg (List.map fun x ↦ (x.name, savedValue? x)) hsame
  rwa [List.map_map, List.map_map] at hsaid

theorem lookup_savedSettings (hnames : (p.settings.map (·.name)).Nodup) (hx : x ∈ p.settings) :
    Toml.lookup x.name p.savedSettings = savedValue? x := by
  rw [savedSettings_eq]
  exact Toml.lookup_entriesOf hnames hx

theorem nodup_savedSettings (p : Patch) : (p.savedSettings.map Prod.fst).Nodup := by
  rw [savedSettings_eq]
  exact (Toml.ordered_gather _).nodup

theorem withoutMoments_savedSettings (p : Patch) :
    Toml.entriesWithoutMoments? p.savedSettings = some p.savedSettings := by
  have hmem : ∀ e ∈ p.savedSettings, e.2.withoutMoments? = some e.2 := by
    rw [savedSettings_eq]
    intro e he
    obtain ⟨x, -, v, hv, rfl⟩ := Toml.mem_entriesOf.mp (Toml.mem_gather he)
    obtain ⟨-, hsome⟩ := Option.ite_none_right_eq_some.mp hv
    cases hsome
    exact x.withoutMoments?_toToml
  revert hmem
  generalize p.savedSettings = es
  intro hmem
  induction es with
  | nil => rfl
  | cons e es ih =>
      obtain ⟨he, hes⟩ := List.forall_mem_cons.mp hmem
      rw [Toml.entriesWithoutMoments?, he, ih hes]

end Patch

/-- A section is read back as it was written. -/
theorem Section.ofToml?_toToml {saved : Section}
    (hsettings : Toml.entriesWithoutMoments? saved.settings = some saved.settings) :
    ofToml? saved.toToml = some saved := by
  obtain ⟨enabled, settings⟩ := saved
  unfold toToml ofToml?
  cases settings with
  | nil =>
      cases enabled with
      | none => rfl
      | some b => rfl
  | cons e es =>
      cases enabled with
      | none => simp [Toml.lookup, readEnabled, readSettings, hsettings]
      | some b => simp [Toml.lookup, readEnabled, readSettings, hsettings]

namespace Patch

/-! ## Restoring settings -/

def restoredFrom (es : List (String × Toml.Value)) (x : Setting) : Setting :=
  (Toml.lookup x.name es).elim x x.restored

theorem name_restoredFrom (es : List (String × Toml.Value)) (x : Setting) :
    (restoredFrom es x).name = x.name := by
  unfold restoredFrom
  cases Toml.lookup x.name es with
  | none => rfl
  | some v => exact x.name_restored v

theorem map_restoredFrom_of_split {front back : List Setting}
    (hnames : ((front ++ x :: back).map (·.name)).Nodup) (v : Toml.Value) :
    (front ++ x :: back).map (restoredFrom [(x.name, v)]) = front ++ x.restored v :: back := by
  have hother : ∀ y ∈ front ++ back, restoredFrom [(x.name, v)] y = y := by
    intro y hy
    have hne : x.name ≠ y.name := (key_ne_of_nodup hnames y hy).symm
    rw [restoredFrom, Toml.lookup, if_neg hne]
    rfl
  obtain ⟨hfront, hback⟩ := List.forall_mem_append.mp hother
  have hx : restoredFrom [(x.name, v)] x = x.restored v := by
    rw [restoredFrom, Toml.lookup, if_pos rfl]
    rfl
  rw [List.map_append, List.map_cons, hx, List.map_congr_left hfront, List.map_congr_left hback,
    List.map_id', List.map_id']

/-- One entry of a table gives the setting of its name a value, if it can be read. -/
theorem restoreSettings_cons (hp : p.enabled = false) (hnames : (p.settings.map (·.name)).Nodup)
    (key : String) (v : Toml.Value) (rest : List (String × Toml.Value)) (s : Site) :
    ∃ s', p.restoreSettings ((key, v) :: rest) s =
      restoreSettings { p with settings := p.settings.map (restoredFrom [(key, v)]) } rest s' := by
  rw [restoreSettings]
  cases hnamed : Setting.named? p.settings key with
  | none =>
      have hsame : p.settings.map (restoredFrom [(key, v)]) = p.settings := by
        refine (List.map_congr_left fun x hx ↦ ?_).trans (List.map_id p.settings)
        have hne : key ≠ x.name := (Setting.named?_eq_none_iff.mp hnamed x hx).symm
        rw [restoredFrom, Toml.lookup, if_neg hne]
        rfl
      rw [hsame]
      exact ⟨_, rfl⟩
  | some x =>
      have hname := (Setting.named?_eq_some_iff.mp hnamed).1
      subst hname
      cases hread : x.kind.ofToml? v with
      | none =>
          obtain ⟨-, front, back, hsplit, -⟩ := Setting.named?_eq_some_iff.mp hnamed
          have hsame : x.restored v = x := by
            rw [Setting.restored, hread]
            rfl
          rw [hsplit] at hnames
          have hmap : p.settings.map (restoredFrom [(x.name, v)]) = p.settings := by
            rw [hsplit, map_restoredFrom_of_split hnames, hsame]
          rw [hmap]
          simp only [hread]
          exact ⟨_, rfl⟩
      | some w =>
          obtain ⟨front, back, r, y, s', m, hsplit, heq, -, hcourse, -⟩ :=
            setSetting_course hnamed w s
          rw [hp] at hcourse
          have hy : y = x.restored v := by
            rw [Setting.restored, hread, Option.bind_some]
            cases hcourse with
            | mismatch hclamp => rw [hclamp]
            | stored hclamp => rw [hclamp]
            | written _ hlive => cases hlive
            | failed _ hlive => cases hlive
          have hmap : p.settings.map (restoredFrom [(x.name, v)]) = front ++ y :: back := by
            rw [hsplit] at hnames ⊢
            rw [map_restoredFrom_of_split hnames, hy]
          rw [hmap]
          simp only [hread, heq]
          cases r with
          | error e => exact ⟨_, rfl⟩
          | ok u => exact ⟨_, rfl⟩

theorem restoredFrom_cons {es : List (String × Toml.Value)} (hkey : key ∉ es.map Prod.fst)
    (x : Setting) :
    restoredFrom es (restoredFrom [(key, v)] x) = restoredFrom ((key, v) :: es) x := by
  by_cases hname : key = x.name
  · subst hname
    have hnone := Toml.lookup_eq_none_iff.mpr hkey
    simp [restoredFrom, Toml.lookup, Setting.name_restored, hnone]
  · simp [restoredFrom, Toml.lookup, hname]

/-- While a patch is disabled, each entry of a table gives the setting of its name a value. -/
theorem restoreSettings_eq (hp : p.enabled = false) (hnames : (p.settings.map (·.name)).Nodup)
    {es : List (String × Toml.Value)} (hes : (es.map Prod.fst).Nodup) (s : Site) :
    ∃ s', p.restoreSettings es s =
      ({ p with settings := p.settings.map (restoredFrom es) }, s') := by
  induction es generalizing p s with
  | nil =>
      have hsame : p.settings.map (restoredFrom []) = p.settings := List.map_id p.settings
      rw [hsame]
      exact ⟨s, rfl⟩
  | cons e es ih =>
      obtain ⟨key, v⟩ := e
      obtain ⟨hfresh, hrest⟩ := List.nodup_cons.mp hes
      obtain ⟨s₁, heq⟩ := restoreSettings_cons hp hnames key v es s
      have hkept : ((p.settings.map (restoredFrom [(key, v)])).map (·.name)).Nodup := by
        rw [List.map_map]
        exact (List.map_congr_left fun x _ ↦ name_restoredFrom _ x).symm ▸ hnames
      obtain ⟨s', heq'⟩ := @ih { p with settings := p.settings.map (restoredFrom [(key, v)]) }
        hp hkept hrest s₁
      refine ⟨s', ?_⟩
      rw [heq, heq']
      simp only [List.map_map]
      have hcomp : restoredFrom es ∘ restoredFrom [(key, v)] = restoredFrom ((key, v) :: es) :=
        funext (restoredFrom_cons hfresh)
      rw [hcomp]

/-- Entries that name no setting and values of the wrong type are passed over. -/
theorem restoreSettings_preserves {P : Patch → Prop}
    (hset : ∀ (p : Patch) key v s, P p → P (p.setSetting key v s).2.1) (hp : P p)
    (es : List (String × Toml.Value)) (s : Site) : P (p.restoreSettings es s).1 := by
  induction es generalizing p s with
  | nil => exact hp
  | cons e es ih =>
      obtain ⟨key, v⟩ := e
      rw [restoreSettings]
      split
      · exact ih hp _
      · split
        · exact ih hp _
        · rename_i w _
          have hkept := hset p key w s hp
          rcases heq : p.setSetting key w s with ⟨e | u, p₁, s₁⟩
          all_goals
            rw [heq] at hkept
            exact ih hkept _

/-! ## What becomes of a patch -/

/-- What holds of a patch that was `q`, whatever was asked of it since. -/
structure Descends (q p : Patch) : Prop where
  metadata : p.metadata = q.metadata
  settings : p.settings.map Setting.blank = q.settings.map Setting.blank
  inBounds : p.InBounds
  /-- A patch is enabled by request only. -/
  touched : p.enabled = true → p.touched = true

namespace Descends

theorem keeps (hp : q.Descends p) (hk : p.Keeps p') (ht : p'.enabled = true → p'.touched = true) :
    q.Descends p' where
  metadata := hk.metadata.trans hp.metadata
  settings := (Setting.map_blank_eq hk.settings).trans hp.settings
  inBounds := hk.inBounds hp.inBounds
  touched := ht

theorem touch (hp : q.Descends p) : q.Descends p.touch :=
  ⟨hp.metadata, hp.settings, hp.inBounds, fun _ ↦ rfl⟩

theorem install (hp : q.Descends p) (s : Site) : q.Descends (p.touch.install s).2.1 := by
  have hk := p.touch.install_keeps s
  exact hp.touch.keeps hk fun _ ↦ hk.touched

theorem uninstall (hp : q.Descends p) (s : Site) : q.Descends (p.uninstall s).2.1 := by
  have hk := p.uninstall_keeps s
  refine hp.keeps hk fun henabled ↦ ?_
  rw [uninstall_enabled, Bool.and_eq_true] at henabled
  rw [hk.touched]
  exact hp.touched henabled.1

theorem update (hp : q.Descends p) (s : Site) : q.Descends (p.update s).1 := by
  obtain ⟨hk, henabled, -⟩ := p.update_settings s
  refine hp.keeps hk fun henabled' ↦ ?_
  rw [hk.touched]
  exact hp.touched (henabled.symm.trans henabled')

theorem setSetting (hp : q.Descends p) (name : String) (v : Setting.Value) (s : Site) :
    q.Descends (p.setSetting name v s).2.1 := by
  cases hnamed : Setting.named? p.settings name with
  | none =>
      rw [setSetting_of_none hnamed]
      exact hp
  | some x =>
      have hkept := setSetting_inBounds hp.inBounds name v s
      obtain ⟨front, back, r, y, s', m, hsplit, heq, -, hcourse, -⟩ := setSetting_course hnamed v s
      have hblank := hcourse.blank_eq (hp.inBounds.kept x hnamed)
      have hsettings := hp.settings
      rw [heq] at hkept ⊢
      rw [hsplit, List.map_append, List.map_cons, ← hblank, ← List.map_cons, ← List.map_append]
        at hsettings
      exact ⟨hp.metadata, hsettings, hkept, hp.touched⟩

theorem restoreSettings (hp : q.Descends p) (es : List (String × Toml.Value)) (s : Site) :
    q.Descends (p.restoreSettings es s).1 := by
  refine restoreSettings_preserves (fun p' key v s' hp' ↦ ?_) hp es s
  exact hp'.setSetting key v s'

theorem restore (hp : q.Descends p) (saved : Section) (s : Site) :
    q.Descends (p.restore saved s).1 := by
  have hset := hp.restoreSettings saved.settings s
  unfold Patch.restore
  rcases heq : p.restoreSettings saved.settings s with ⟨p₁, s₁⟩
  rw [heq] at hset
  simp only
  split
  · exact hset
  · exact hset.install s₁
  · exact hset.touch.uninstall s₁

end Descends

/-! ## Restoring a new patch -/

structure Unused (q : Patch) : Prop where
  disabled : q.enabled = false
  changes : q.changes = []
  touched : q.touched = false
  names : (q.settings.map (·.name)).Nodup
  declared : ∀ x ∈ q.settings, x.Declared

theorem Unused.descends (hq : q.Unused) : q.Descends q where
  metadata := rfl
  settings := rfl
  inBounds x hx := (hq.declared x hx).inBounds
  touched henabled := by cases hq.disabled.symm.trans henabled

theorem Descends.names_eq (hp : q.Descends p) :
    p.settings.map (·.name) = q.settings.map (·.name) := by
  have hnames := congrArg (List.map (·.name)) hp.settings
  rwa [List.map_map, List.map_map] at hnames

structure Alike (p p' : Patch) : Prop where
  metadata : p'.metadata = p.metadata
  enabled : p'.enabled = p.enabled
  settings : p'.settings.map Setting.withdrawn = p.settings.map Setting.withdrawn
  saved : p'.saved? = p.saved?

/-- What was saved of a patch brings the settings of a new one to the same values. -/
theorem Descends.map_restoredFrom (hq : q.Unused) (hp : q.Descends p) :
    (q.settings.map (restoredFrom p.savedSettings)).map Setting.withdrawn =
      p.settings.map Setting.withdrawn := by
  have hnames : (p.settings.map (·.name)).Nodup := by
    rw [hp.names_eq]
    exact hq.names
  rw [List.map_map]
  refine (map_eq_of_map_eq hp.settings fun y hy x hx hblank ↦ ?_).symm
  have hname : y.name = x.name := (congrArg (·.name) hblank :)
  have hkind : y.kind = x.kind := (congrArg (·.kind) hblank :)
  have hdefault : y.default = x.default := (congrArg (·.default) hblank :)
  have hlookup := lookup_savedSettings hnames hy
  rw [hname] at hlookup
  rw [Function.comp_apply, restoredFrom, hlookup, savedValue?]
  cases hmodified : y.isModified with
  | true => exact (Setting.withdrawn_restored (hq.declared x hx) hblank (hp.inBounds y hy)).symm
  | false =>
      have hfaithful : y.kind.Faithful := by
        rw [hkind]
        exact (hq.declared x hx).faithful
      have hvalue : y.value = x.value := by
        rw [Setting.value_eq_of_not_modified hfaithful (hp.inBounds y hy).value hmodified, hdefault,
          (hq.declared x hx).value_eq]
      exact Setting.withdrawn_eq_of_blank_eq hblank hvalue

/-- If a section says that the patch is enabled, it can be installed with the settings of that
section. -/
def Installs (p : Patch) (saved : Section) (s : Site) : Prop :=
  saved.enabled = some true →
    ((p.restoreSettings saved.settings s).1.touch.install
      (p.restoreSettings saved.settings s).2).1 = true

theorem saved?_of_touched (hp : p.touched = true) :
    p.saved? = some ⟨some p.enabled, p.savedSettings⟩ := by
  rw [saved?, hp]
  rfl

theorem saved?_eq_some {saved : Section} (hp : p.saved? = some saved) :
    saved = ⟨some p.enabled, p.savedSettings⟩ := by
  unfold saved? at hp
  split at hp
  · cases hp
  · exact (Option.some.inj hp).symm

theorem saved?_eq_none (hp : p.saved? = none) : p.touched = false ∧ p.savedSettings = [] := by
  unfold saved? at hp
  split at hp
  · rename_i hnothing
    rwa [Bool.and_eq_true, Bool.not_eq_true', List.isEmpty_iff] at hnothing
  · cases hp

/-- Of a patch that is restored from what was saved, the same is saved again. -/
theorem Descends.restored (hq : q.Unused) (hp : q.Descends p) {saved : Section}
    (hsaved : p.saved? = some saved) (hinstalls : q.Installs saved s) :
    p.Alike (q.restore saved s).1 := by
  obtain rfl := saved?_eq_some hsaved
  obtain ⟨s', heq⟩ := restoreSettings_eq hq.disabled hq.names (nodup_savedSettings p) s
  have halike {q' : Patch}
      (hk : (Patch.touch { q with settings := q.settings.map (restoredFrom p.savedSettings) }).Keeps
        q')
      (henabled : q'.enabled = p.enabled) : p.Alike q' := by
    -- the values as saved stay whatever comes of the request that follows
    have hsettings := hk.settings.trans (hp.map_restoredFrom hq)
    refine ⟨hk.metadata.trans hp.metadata.symm, henabled, hsettings, ?_⟩
    rw [saved?_of_touched hk.touched, henabled, savedSettings_congr hsettings, hsaved]
  unfold Installs at hinstalls
  unfold Patch.restore
  rw [heq] at hinstalls ⊢
  cases henabled : p.enabled with
  | true =>
      have hinstalled := hinstalls (congrArg some henabled)
      refine halike (install_keeps ..) ?_
      rw [install_enabled, henabled]
      exact hinstalled
  | false =>
      refine halike (uninstall_keeps ..) ?_
      rw [uninstall_enabled, henabled]
      exact (congrArg (· && _) hq.disabled).trans (Bool.false_and _)

/-- A patch of which nothing is saved is like a new one. -/
theorem Descends.unsaved (hq : q.Unused) (hp : q.Descends p) (hsaved : p.saved? = none) :
    p.Alike q := by
  obtain ⟨htouched, hnothing⟩ := saved?_eq_none hsaved
  have hsettings := hp.map_restoredFrom hq
  have hsame : q.settings.map (restoredFrom []) = q.settings := List.map_id q.settings
  rw [hnothing, hsame] at hsettings
  have henabled : p.enabled = false := by
    -- what was never asked for anything was not enabled either
    rw [← Bool.not_eq_true]
    intro henabled
    cases htouched.symm.trans (hp.touched henabled)
  refine ⟨hp.metadata.symm, hq.disabled.trans henabled.symm, hsettings, ?_⟩
  rw [hsaved, saved?, savedSettings_congr hsettings, hq.touched, hnothing]
  rfl

end Patch

end HotPatch
