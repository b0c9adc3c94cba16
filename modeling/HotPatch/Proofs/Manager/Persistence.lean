import HotPatch.Proofs.Manager.Conservation
import HotPatch.Proofs.Manager.Teardown
import HotPatch.Proofs.Patch.Saved

/-!
# Saving and loading

The document that a manager saves brings a new manager to the same state, from which the same
document is saved: what it leaves out is what a new manager has anyway.
-/

namespace HotPatch

variable {p q : Patch} {ps qs : List Patch} {s : Site} {name : String} {v : Toml.Value}
  {d : Toml.Document}

namespace Manager

variable {m : Manager} {h : Host}

/-! ## What becomes of the patches -/

section

variable {S : Patch → Patch → Prop}

theorem forall₂_actFirst {α : Type} {f : Patch → Site → α × Patch × Site}
    (hf : ∀ q p s, S q p → S q (f p s).2.1) (name : String) (hps : List.Forall₂ S qs ps)
    (s : Site) : List.Forall₂ S qs (actFirst name f ps s).2.1 := by
  induction hps generalizing s with
  | nil => exact .nil
  | @cons q p qs ps hp hps ih =>
      rw [actFirst]
      split
      · exact .cons (hf q p s hp) hps
      · exact .cons hp (ih s)

theorem forall₂_updateEach (hf : ∀ q p s, S q p → S q (p.update s).1) (hps : List.Forall₂ S qs ps)
    (s : Site) : List.Forall₂ S qs (updateEach ps s).1 := by
  induction hps generalizing s with
  | nil => exact .nil
  | @cons q p qs ps hp hps ih => exact .cons (hf q p s hp) (ih _)

theorem forall₂_uninstallEach (hf : ∀ q p s, S q p → S q (p.uninstall s).2.1)
    (hps : List.Forall₂ S qs ps) (s : Site) : List.Forall₂ S qs (uninstallEach ps s).2.1 := by
  induction hps generalizing s with
  | nil => exact .nil
  | @cons q p qs ps hp hps ih => exact .cons (hf q p _ hp) (ih s)

end

/-- All patches are built, and `qs` is what they were then. -/
structure Descends (qs : List Patch) (m : Manager) : Prop where
  registry : m.registry = none
  patches : List.Forall₂ Patch.Descends qs m.patches

namespace Descends

theorem act (hm : Descends qs m) {α : Type} {f : Patch → Site → α × Patch × Site}
    (hf : ∀ (q p : Patch) s, q.Descends p → q.Descends (f p s).2.1) (name : String) (h : Host) :
    Descends qs (m.act name f h).2.1 :=
  ⟨hm.registry, forall₂_actFirst hf name hm.patches _⟩

theorem enable (hm : Descends qs m) (name : String) (h : Host) :
    Descends qs (m.enable name h).2.1 := by
  have hact := hm.act (f := fun p s ↦ p.touch.install s) (fun _ _ s hp ↦ hp.install s) name h
  unfold Manager.enable
  split
  · rename_i heq
    rwa [heq] at hact
  · rename_i heq
    rwa [heq] at hact

theorem disable (hm : Descends qs m) (name : String) (h : Host) :
    Descends qs (m.disable name h).2.1 := by
  have hact := hm.act (f := fun p s ↦ p.touch.uninstall s)
    (fun _ _ s hp ↦ hp.touch.uninstall s) name h
  unfold Manager.disable
  split
  · rename_i heq
    rwa [heq] at hact
  · rename_i heq
    rwa [heq] at hact

theorem setSetting (hm : Descends qs m) (patch setting : String) (v : Setting.Value) (h : Host) :
    Descends qs (m.setSetting patch setting v h).2.1 := by
  have hact := hm.act (f := fun p s ↦ p.setSetting setting v s)
    (fun _ _ s hp ↦ hp.setSetting setting v s) patch h
  unfold Manager.setSetting
  split
  · rename_i heq
    rwa [heq] at hact
  · rename_i heq
    rwa [heq] at hact

theorem restoreSection (hm : Descends qs m) (name : String) (v : Toml.Value) (h : Host) :
    Descends qs (m.restoreSection name v h).2.1 := by
  unfold Manager.restoreSection
  split
  · exact hm
  · rename_i saved _
    have hact := hm.act (f := fun p s ↦ ((), p.restore saved s))
      (fun _ _ s hp ↦ hp.restore saved s) name h
    split
    · rename_i heq
      rwa [heq] at hact
    · rename_i heq
      rwa [heq] at hact

theorem restoreSections (hm : Descends qs m) (d : Toml.Document) (h : Host) :
    Descends qs (m.restoreSections d h).2.1 := by
  induction d generalizing m h with
  | nil => exact hm
  | cons e d ih =>
      obtain ⟨name, v⟩ := e
      exact ih (hm.restoreSection name v h) _

/-- Whatever happens to a manager, its patches descend from those that were built. -/
theorem take (hm : Descends qs m) (t : Turn) (h : Host) : Descends qs (t.take m h).1 := by
  cases t with
  | instantiate =>
      rw [Turn.take, instantiate, hm.registry]
      exact hm
  | enable name => exact hm.enable name h
  | disable name => exact hm.disable name h
  | setSetting patch setting v => exact hm.setSetting patch setting v h
  | update =>
      exact ⟨hm.registry, forall₂_updateEach (fun _ _ s hp ↦ hp.update s) hm.patches _⟩
  | disableAll =>
      exact ⟨hm.registry, forall₂_uninstallEach (fun _ _ s hp ↦ hp.uninstall s) hm.patches _⟩
  | load text =>
      rw [Turn.take, load]
      split
      · exact hm
      · exact hm.restoreSections _ h
  | protect page q => exact hm
  | place cell a => exact hm

end Descends

end Manager

/-! ## Restoring a document -/

namespace Patch

theorem metadata_setSetting (p : Patch) (name : String) (v : Setting.Value) (s : Site) :
    (p.setSetting name v s).2.1.metadata = p.metadata := by
  unfold setSetting
  split
  · rfl
  · rfl

theorem metadata_restoreSettings (p : Patch) (es : List (String × Toml.Value)) (s : Site) :
    (p.restoreSettings es s).1.metadata = p.metadata := by
  refine restoreSettings_preserves (P := fun p' ↦ p'.metadata = p.metadata) ?_ rfl es s
  exact fun p' key v s' hp' ↦ (p'.metadata_setSetting key v s').trans hp'

theorem metadata_restore (p : Patch) (saved : Section) (s : Site) :
    (p.restore saved s).1.metadata = p.metadata := by
  have hset := p.metadata_restoreSettings saved.settings s
  unfold restore
  rcases heq : p.restoreSettings saved.settings s with ⟨p₁, s₁⟩
  rw [heq] at hset
  simp only
  split
  · exact hset
  · exact (p₁.touch.install_keeps s₁).metadata.trans hset
  · exact (p₁.touch.uninstall_keeps s₁).metadata.trans hset

inductive Restored (d : Toml.Document) (q : Patch) : Patch → Prop where
  | absent (hlookup : Toml.lookup q.name d = none) : Restored d q q
  | present {v : Toml.Value} {saved : Section} {s : Site} (hlookup : Toml.lookup q.name d = some v)
      (hsection : Section.ofToml? v = some saved) (hinstalls : q.Installs saved s) :
      Restored d q (q.restore saved s).1

theorem Restored.name_eq {q' : Patch} (hq : q.Restored d q') : q'.name = q.name := by
  cases hq with
  | absent => rfl
  | present => exact congrArg Metadata.name (q.metadata_restore ..)

/-- The section of a patch stands in a document once. -/
theorem Restored.cons {q₁ q₂ : Patch} (hfirst : q.Restored [(name, v)] q₁)
    (hrest : q₁.Restored d q₂) (hfresh : name ∉ d.map Prod.fst) :
    q.Restored ((name, v) :: d) q₂ := by
  have hname := hfirst.name_eq
  have hlookup : Toml.lookup q.name ((name, v) :: d) =
      (Toml.lookup q.name [(name, v)]).or (Toml.lookup q.name d) := by
    rw [Toml.lookup, Toml.lookup]
    split
    · rfl
    · rfl
  cases hfirst with
  | absent habsent =>
      rw [habsent, Option.none_or] at hlookup
      cases hrest with
      | absent habsent' => exact .absent (hlookup.trans habsent')
      | present hpresent hsection hinstalls =>
          exact .present (hlookup.trans hpresent) hsection hinstalls
  | present hpresent hsection hinstalls =>
      rw [hpresent, Option.some_or] at hlookup
      have hsame : name = q.name := by
        by_contra hne
        rw [Toml.lookup, if_neg hne] at hpresent
        cases hpresent
      cases hrest with
      | absent => exact .present hlookup hsection hinstalls
      | present hpresent' =>
          -- the patch has no second section
          rw [hname, ← hsame, Toml.lookup_eq_none_iff.mpr hfresh] at hpresent'
          cases hpresent'

end Patch

namespace Manager

variable {m : Manager} {h : Host}

/-- Each patch that is enabled according to its section is installed when that has its turn. -/
def InstallsEach : Toml.Document → Manager → Host → Prop
  | [], _, _ => True
  | (name, v) :: d, m, h =>
    (∀ saved, Section.ofToml? v = some saved → ∀ p, m.find? name = some p →
      p.Installs saved ⟨m.resolver, h⟩) ∧
      InstallsEach d (m.restoreSection name v h).2.1 (m.restoreSection name v h).2.2

/-- A section restores the patch of its name and leaves the others as they were. -/
theorem restoreSection_restored (hnames : (m.patches.map Patch.name).Nodup) {saved : Section}
    (hsection : Section.ofToml? v = some saved) (hknown : name ∈ m.patches.map Patch.name)
    (hinstalls : ∀ p, m.find? name = some p → p.Installs saved ⟨m.resolver, h⟩) :
    (m.restoreSection name v h).1 = true ∧
      List.Forall₂ (Patch.Restored [(name, v)]) m.patches
        (m.restoreSection name v h).2.1.patches := by
  obtain ⟨p, hp, rfl⟩ := List.mem_map.mp hknown
  obtain ⟨front, back, hsplit⟩ := List.append_of_mem hp
  rw [hsplit] at hnames
  have hother : ∀ q ∈ front ++ back, q.name ≠ p.name := key_ne_of_nodup hnames
  have habsent : ∀ q ∈ front ++ back, q.Restored [(p.name, v)] q := by
    intro q hq
    refine .absent ?_
    rw [Toml.lookup, if_neg (hother q hq).symm]
    rfl
  obtain ⟨hfront, hback⟩ := List.forall_mem_append.mp habsent
  have hnone : p.name ∉ front.map Patch.name := by
    intro hmem
    obtain ⟨q, hq, hsame⟩ := List.mem_map.mp hmem
    exact hother q (List.mem_append_left back hq) hsame
  have hfind : m.find? p.name = some p := by
    refine List.find?_eq_some_iff_append.mpr ⟨beq_self_eq_true _, front, back, hsplit, ?_⟩
    exact fun q hq ↦ bne_iff_ne.mpr (hother q (List.mem_append_left back hq))
  have hact : actFirst p.name (fun p s ↦ ((), p.restore saved s)) (front ++ p :: back)
      ⟨m.resolver, h⟩ = (some (), front ++ (p.restore saved ⟨m.resolver, h⟩).1 :: back,
        (p.restore saved ⟨m.resolver, h⟩).2) := actFirst_eq hnone rfl
  have hpresent : p.Restored [(p.name, v)] (p.restore saved ⟨m.resolver, h⟩).1 :=
    .present (if_pos rfl) hsection (hinstalls p hfind)
  rw [restoreSection, hsection]
  simp only [act, hsplit, hact]
  exact ⟨trivial, List.rel_append (List.forall₂_same.mpr hfront)
    (.cons hpresent (List.forall₂_same.mpr hback))⟩

/-- Restoring a document restores each patch by its own section alone. -/
theorem restoreSections_restored (hd : (d.map Prod.fst).Nodup)
    (hnames : (m.patches.map Patch.name).Nodup)
    (hsections : ∀ e ∈ d, ∃ saved, Section.ofToml? e.2 = some saved)
    (hknown : ∀ e ∈ d, e.1 ∈ m.patches.map Patch.name) (hinstalls : InstallsEach d m h) :
    (m.restoreSections d h).1 = d.length ∧
      List.Forall₂ (Patch.Restored d) m.patches (m.restoreSections d h).2.1.patches := by
  induction d generalizing m h with
  | nil => exact ⟨rfl, List.forall₂_same.mpr fun q _ ↦ .absent rfl⟩
  | cons e d ih =>
      obtain ⟨name, v⟩ := e
      obtain ⟨hfresh, hrest⟩ := List.nodup_cons.mp hd
      obtain ⟨⟨saved, hsection⟩, hsections⟩ := List.forall_mem_cons.mp hsections
      obtain ⟨hname, hknown⟩ := List.forall_mem_cons.mp hknown
      obtain ⟨htrue, hfirst⟩ := restoreSection_restored hnames hsection hname
        (hinstalls.1 saved hsection)
      have hsame : (m.restoreSection name v h).2.1.patches.map Patch.name =
          m.patches.map Patch.name := map_eq_of_forall₂ (hfirst.imp fun _ _ hq ↦ hq.name_eq)
      obtain ⟨hcount, hfollowing⟩ :=
        ih hrest (hsame ▸ hnames) hsections (hsame ▸ hknown) hinstalls.2
      refine ⟨?_, forall₂_trans (fun q q₁ q₂ h₁ h₂ ↦ h₁.cons h₂ hfresh) hfirst hfollowing⟩
      rw [restoreSections]
      simp only [htrue, if_true, hcount, List.length_cons]

/-! ## Documents -/

theorem document_eq (m : Manager) :
    m.document = Toml.gather (Toml.entriesOf Patch.name
      (fun p ↦ p.saved?.map Section.toToml) m.patches) := by
  rw [document, Toml.gather, Toml.entriesOf, List.foldl_filterMap]
  refine congrArg (fun f ↦ m.patches.foldl f []) (funext fun es ↦ funext fun p ↦ ?_)
  cases p.saved? with
  | none => rfl
  | some saved => rfl

theorem nodup_document (m : Manager) : (m.document.map Prod.fst).Nodup := by
  rw [document_eq]
  exact (Toml.ordered_gather _).nodup

theorem lookup_document (hnames : (m.patches.map Patch.name).Nodup) (hp : p ∈ m.patches) :
    Toml.lookup p.name m.document = p.saved?.map Section.toToml := by
  rw [document_eq]
  exact Toml.lookup_entriesOf hnames hp

theorem ofToml?_saved {saved : Section} (hp : p.saved? = some saved) :
    Section.ofToml? saved.toToml = some saved := by
  obtain rfl := Patch.saved?_eq_some hp
  exact Section.ofToml?_toToml p.withoutMoments_savedSettings

theorem mem_document {e : String × Toml.Value} (he : e ∈ m.document) :
    e.1 ∈ m.patches.map Patch.name ∧ ∃ saved, Section.ofToml? e.2 = some saved := by
  rw [document_eq] at he
  obtain ⟨p, hp, v, hv, rfl⟩ := Toml.mem_entriesOf.mp (Toml.mem_gather he)
  obtain ⟨saved, hsaved, rfl⟩ := Option.map_eq_some_iff.mp hv
  exact ⟨List.mem_map_of_mem hp, saved, ofToml?_saved hsaved⟩

/-- Restoring the document brings a new patch to the state that was saved. -/
theorem alike_of_restored {q' : Patch} (hnames : (m.patches.map Patch.name).Nodup)
    (hp : p ∈ m.patches) (hq : q.Unused) (hdescends : q.Descends p)
    (hrestored : q.Restored m.document q') : p.Alike q' := by
  have hname : p.name = q.name := congrArg Metadata.name hdescends.metadata
  have hlookup := lookup_document hnames hp
  rw [hname] at hlookup
  cases hsaved : p.saved? with
  | none =>
      rw [hsaved, Option.map_none] at hlookup
      cases hrestored with
      | absent => exact hdescends.unsaved hq hsaved
      | present hpresent => cases hpresent.symm.trans hlookup
  | some saved =>
      rw [hsaved, Option.map_some] at hlookup
      cases hrestored with
      | absent habsent => cases habsent.symm.trans hlookup
      | present hpresent hsection hinstalls =>
          cases hpresent.symm.trans hlookup
          cases hsection.symm.trans (ofToml?_saved hsaved)
          exact hdescends.restored hq hsaved hinstalls

theorem document_congr {m' : Manager} (hsame : List.Forall₂ Patch.Alike m.patches m'.patches) :
    m'.document = m.document := by
  rw [document_eq, document_eq]
  refine congrArg Toml.gather (Toml.entriesOf_congr (map_eq_of_forall₂ (hsame.imp ?_)))
  intro p p' halike
  rw [Patch.name, halike.metadata, halike.saved, Patch.name]

/-! ## Loading what was saved -/

/-- What a manager can become after its patches were built, whatever its host does between the
requests. -/
inductive Reached (registry : Registry) (resolver : Resolver) : Manager → Prop where
  | instantiated (h : Host) : Reached registry resolver ((new registry resolver).instantiate h).2.1
  | turn {m : Manager} (t : Turn) (h : Host) :
      Reached registry resolver m → Reached registry resolver (t.take m h).1

def shown (p : Patch) : String × Bool × List (String × Setting.Value) :=
  (p.name, p.enabled, p.settings.map fun x ↦ (x.name, x.value))

end Manager

/-- The patches of a registry declare settings of different names, which hold no number with a
fraction. -/
structure Registry.Declared (r : Registry) : Prop where
  names : ∀ e ∈ r, (e.body.settings.map (·.name)).Nodup
  settings : ∀ e ∈ r, ∀ x ∈ e.body.settings, x.Declared

theorem Registry.unused_build {r : Registry} (hr : r.Declared) {taken : List String} {h : Host} :
    ∀ q ∈ (r.build taken h).1, q.Unused := by
  intro q hq
  obtain ⟨e, he, rfl⟩ := Registry.mem_build hq
  exact ⟨rfl, rfl, rfl, hr.names e he, hr.settings e he⟩

/-- Which patches are built does not depend on the host. -/
theorem Registry.build_congr (r : Registry) (taken : List String) (h h' : Host) :
    (r.build taken h).1 = (r.build taken h').1 := by
  induction r generalizing taken h h' with
  | nil => rfl
  | cons e r ih =>
      rw [build, build]
      split
      · exact ih taken _ _
      · simp only [ih (e.metadata.name :: taken) h h']

namespace Manager

variable {m : Manager} {h : Host}

theorem Reached.play {registry : Registry} {resolver : Resolver} (hm : Reached registry resolver m)
    (ts : List Turn) (h : Host) : Reached registry resolver (Manager.play ts m h).1 := by
  induction ts generalizing m h with
  | nil => exact hm
  | cons t ts ih => exact ih (hm.turn t h) _

theorem Reached.descends {registry : Registry} (hr : registry.Declared) {resolver : Resolver}
    (hm : Reached registry resolver m) (h : Host) : Descends (registry.build [] h).1 m := by
  induction hm with
  | instantiated h' =>
      obtain ⟨heq, -⟩ := instantiate_new registry resolver h'
      rw [heq, registry.build_congr [] h h']
      exact ⟨rfl, List.forall₂_same.mpr fun q hq ↦ (Registry.unused_build hr q hq).descends⟩
  | turn t h' _ ih => exact ih.take t h'

/-- Loading what a manager saved into a new one, where the patches that were enabled are installed,
brings each patch to the state that it had, and the same is saved again. -/
theorem load_save (registry : Registry) (hr : registry.Declared) {resolver : Resolver}
    (hm : Reached registry resolver m) (hread : Toml.Document.read? m.save = some m.document)
    (resolver' : Resolver) (h₀ h : Host)
    (hinstalls : InstallsEach m.document ((new registry resolver').instantiate h₀).2.1 h) :
    let loaded := ((new registry resolver').instantiate h₀).2.1.load m.save h
    loaded.1 = some m.document.length ∧
      loaded.2.1.patches.map shown = m.patches.map shown ∧ loaded.2.1.save = m.save := by
  intro loaded
  obtain ⟨hfresh, -⟩ := instantiate_new registry resolver' h₀
  have hdescends := (hm.descends hr h₀).patches
  have hunused : ∀ q ∈ (registry.build [] h₀).1, q.Unused := Registry.unused_build hr
  have hnew : ((registry.build [] h₀).1.map Patch.name).Nodup := Registry.nodup_build.1
  have hsame : m.patches.map Patch.name = (registry.build [] h₀).1.map Patch.name :=
    map_eq_of_forall₂ (hdescends.imp fun _ _ hp ↦ congrArg Metadata.name hp.metadata)
  have hnames : (m.patches.map Patch.name).Nodup := hsame ▸ hnew
  rw [hfresh] at hinstalls
  -- each new patch is restored by the section of the patch that it corresponds to
  obtain ⟨hcount, hrestored⟩ := restoreSections_restored (nodup_document m) hnew
    (fun _ he ↦ (mem_document he).2) (fun _ he ↦ hsame ▸ (mem_document he).1) hinstalls
  have halike := forall₂_trans (fun p q q' hp hq ↦ alike_of_restored hnames hp.1 hq.1 hp.2 hq.2)
    ((List.forall₂_and_left ..).mpr ⟨fun _ hp ↦ hp, hdescends.flip⟩)
    ((List.forall₂_and_left ..).mpr ⟨hunused, hrestored⟩)
  have hloaded : loaded.1 = some m.document.length ∧
      List.Forall₂ Patch.Alike m.patches loaded.2.1.patches := by
    simp only [loaded, hfresh, load, hread, restore, hcount]
    exact ⟨trivial, halike⟩
  refine ⟨hloaded.1, map_eq_of_forall₂ (hloaded.2.imp fun p p' hp ↦ ?_), ?_⟩
  · have hvalues := congrArg (List.map fun x ↦ (x.name, x.value)) hp.settings
    rw [List.map_map, List.map_map] at hvalues
    rw [shown, Patch.name, hp.metadata, hp.enabled]
    exact congrArg (fun values ↦ (p.name, p.enabled, values)) hvalues
  · rw [save, save, document_congr hloaded.2]

/-- A patch with a setting of each kind that is read back as it was, and one that is left alone. -/
def pacing : Registry :=
  [⟨.named "Pacing", .ofProgram [.bool "Sync" true,
      (Setting.int "Fps" 60 30 240).bind ⟨.fixed 16, .u8⟩, .choice "Mode" 0 ["Low", "High"]]
      (.transaction (.write (.bytes 0 [170]) fun _ ↦ .done) (Program.after .done))⟩,
    ⟨.named "Idle", .ofProgram [] .done⟩]

theorem declared_pacing : Registry.Declared pacing := by
  refine ⟨by decide, List.forall_mem_cons.mpr ⟨?_, List.forall_mem_singleton.mpr ?_⟩⟩
  · refine List.forall_mem_cons.mpr ⟨.bool .., List.forall_mem_cons.mpr
      ⟨.bind _ (.int ..), List.forall_mem_singleton.mpr (.choice _ _ ?_)⟩⟩
    decide
  · exact List.forall_mem_nil _

def paced : Manager :=
  (play [.enable "Pacing", .setSetting "Pacing" "Fps" (.int 300),
    .setSetting "Pacing" "Mode" (.choice 1)]
    ((new pacing (.new .unknown ⟨0, 0⟩)).instantiate .onePage).2.1 .onePage).1

theorem document_paced : paced.document = [("Pacing", .table [("Enabled", .boolean true),
    ("Settings", .table [("Fps", .integer 240), ("Mode", .string "High")])])] := by rfl

theorem save_paced : paced.save =
    "[Pacing]\nEnabled = true\n\n[Pacing.Settings]\nFps = 240\nMode = \"High\"\n" := by
  rw [save, document_paced]
  decide +kernel

theorem read_paced : Toml.Document.read? paced.save = some paced.document := by
  rw [save_paced, document_paced]
  decide +kernel

theorem installsEach_paced : InstallsEach paced.document
    ((new pacing (.new .unknown ⟨0, 0⟩)).instantiate .onePage).2.1 .onePage := by
  rw [document_paced]
  refine ⟨fun saved hsection p hfind ↦ ?_, trivial⟩
  obtain rfl : (⟨some true, [("Fps", .integer 240), ("Mode", .string "High")]⟩ : Section) = saved :=
    Option.some.inj hsection
  obtain rfl := Option.some.inj hfind
  intro _
  decide +kernel

/-- A value beyond its bounds is saved as it was stored, and a choice by its name. -/
theorem load_save_pacing :
    let fresh := ((new pacing (.new .unknown ⟨0, 0⟩)).instantiate .onePage).2.1
    let loaded := fresh.load paced.save .onePage
    paced.save = "[Pacing]\nEnabled = true\n\n[Pacing.Settings]\nFps = 240\nMode = \"High\"\n" ∧
      loaded.1 = some 1 ∧ loaded.2.1.patches.map shown =
        [("Pacing", true, [("Sync", .bool true), ("Fps", .int 240), ("Mode", .choice 1)]),
          ("Idle", false, [])] ∧ loaded.2.1.save = paced.save := by
  have hshown : paced.patches.map shown =
      [("Pacing", true, [("Sync", .bool true), ("Fps", .int 240), ("Mode", .choice 1)]),
        ("Idle", false, [])] := by rfl
  have hm : Reached pacing (.new .unknown ⟨0, 0⟩) paced := (Reached.instantiated .onePage).play _ _
  obtain ⟨hcount, hsame, hagain⟩ := load_save pacing declared_pacing hm read_paced
    (.new .unknown ⟨0, 0⟩) .onePage .onePage installsEach_paced
  rw [document_paced] at hcount
  exact ⟨save_paced, hcount, hsame.trans hshown, hagain⟩

end Manager

end HotPatch
