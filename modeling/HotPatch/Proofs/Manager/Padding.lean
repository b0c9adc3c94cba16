import HotPatch.Proofs.Manager.Persistence
import HotPatch.Proofs.Patch.Padding

/-!
# Documents with more in them

Sections of patches that are not there, sections that are none, and settings that are passed over
may be added to a document without a difference to what loading it does, as long as every section
that was one before still is.
-/

namespace HotPatch

/-! ## Sections -/

namespace Section

variable {v v' : Toml.Value} {es es' : List (String × Toml.Value)} {saved saved' : Section}
  {P Q : String × Toml.Value → Prop}

def entries? : Option Toml.Value → Option (List (String × Toml.Value))
  | none => some []
  | some (.table entries) => some entries
  | some _ => none

def parts? : Toml.Value → Option (Option Toml.Value × List (String × Toml.Value))
  | .table entries =>
    (entries? (Toml.lookup "Settings" entries)).map (Toml.lookup "Enabled" entries, ·)
  | .array items => if 2 < items.length then none else (entries? items[1]?).map (items[0]?, ·)
  | _ => none

def ofParts? (p : Option Toml.Value × List (String × Toml.Value)) : Option Section :=
  match readEnabled p.1, Toml.entriesWithoutMoments? p.2 with
  | some enabled, some settings => some ⟨enabled, settings⟩
  | _, _ => none

theorem ofParts?_eq_some_iff {enabled : Option Toml.Value} :
    ofParts? (enabled, es) = some saved ↔ readEnabled enabled = some saved.enabled ∧
      Toml.entriesWithoutMoments? es = some saved.settings := by
  obtain ⟨on, settings⟩ := saved
  unfold ofParts?
  dsimp only
  cases readEnabled enabled with
  | none => simp
  | some b =>
      cases Toml.entriesWithoutMoments? es with
      | none => simp
      | some fs => simp

/-- A section is read from its two fields. -/
theorem ofToml?_eq (v : Toml.Value) : ofToml? v = (parts? v).bind ofParts? := by
  have hread (enabled field : Option Toml.Value) :
      (match readEnabled enabled, readSettings field with
        | some enabled, some settings => some ⟨enabled, settings⟩
        | _, _ => (none : Option Section)) =
        ((entries? field).map (enabled, ·)).bind ofParts? := by
    rcases field with _ | w
    · rfl
    · cases w with
      | table es => rfl
      | _ => cases readEnabled enabled <;> rfl
  cases v with
  | table entries => exact hread ..
  | array items =>
      unfold ofToml? parts?
      dsimp only
      split
      · rfl
      · exact hread ..
  | string s => rfl
  | integer i => rfl
  | float x => rfl
  | boolean b => rfl
  | moment text => rfl

theorem ofToml?_eq_some_iff : ofToml? v = some saved ↔
    ∃ enabled es, parts? v = some (enabled, es) ∧ readEnabled enabled = some saved.enabled ∧
      Toml.entriesWithoutMoments? es = some saved.settings := by
  rw [ofToml?_eq, Option.bind_eq_some_iff]
  constructor
  · rintro ⟨⟨enabled, es⟩, hparts, hsaved⟩
    exact ⟨enabled, es, hparts, ofParts?_eq_some_iff.mp hsaved⟩
  · rintro ⟨enabled, es, hparts, hsaved⟩
    exact ⟨(enabled, es), hparts, ofParts?_eq_some_iff.mpr hsaved⟩

/-- The settings of a section that was read are in order. -/
theorem ordered_of_parts? (hv : v.Meant) {enabled : Option Toml.Value}
    (h : parts? v = some (enabled, es)) : Toml.Ordered es := by
  have hentries {field : Option Toml.Value} (hfield : ∀ w ∈ field, w.Meant)
      (hes : entries? field = some es) : Toml.Ordered es := by
    unfold entries? at hes
    split at hes
    · cases hes
      exact Toml.ordered_nil
    · cases hes
      exact (hfield _ rfl).table.1
    · cases hes
  cases v with
  | table entries =>
      rw [parts?, Option.map_eq_some_iff] at h
      obtain ⟨es', hes, heq⟩ := h
      cases heq
      exact hentries (fun w hw ↦ hv.table.2 _ (Toml.mem_of_lookup hw)) hes
  | array items =>
      rw [parts?] at h
      split at h
      · cases h
      · rw [Option.map_eq_some_iff] at h
        obtain ⟨es', hes, heq⟩ := h
        cases heq
        exact hentries (fun w hw ↦ hv.array w (List.mem_of_getElem? hw)) hes
  | string s => cases h
  | integer i => cases h
  | float x => cases h
  | boolean b => cases h
  | moment text => cases h

def Extends (P : String × Toml.Value → Prop) (v v' : Toml.Value) : Prop :=
  v' = v ∨ ∃ enabled es es', parts? v = some (enabled, es) ∧ parts? v' = some (enabled, es') ∧
    Toml.Extends P (fun _ x x' ↦ x' = x) es es'

theorem Extends.imp (h : Extends P v v') (hPQ : ∀ e, P e → Q e) : Extends Q v v' := by
  refine h.imp_right fun ⟨enabled, es, es', hes, hes', hall⟩ ↦ ⟨enabled, es, es', hes, hes', ?_⟩
  exact ⟨hall.kept, fun k x hx hnone ↦ hPQ (k, x) (hall.added k x hx hnone)⟩

/-- All settings of the section have a form without moments. -/
def Plain (v : Toml.Value) : Prop :=
  ∀ enabled es, parts? v = some (enabled, es) → ∀ e ∈ es, e.2.withoutMoments?.isSome

/-- What is a section with the added settings was one without them. -/
theorem Extends.padded (h : Extends P v v') (hv : v.Meant) (hv' : v'.Meant)
    (hPQ : ∀ k x y, P (k, x) → x.withoutMoments? = some y → Q (k, y))
    (hsaved' : ofToml? v' = some saved') :
    ∃ saved, ofToml? v = some saved ∧ saved'.enabled = saved.enabled ∧
      Toml.Padded Q (fun _ x x' ↦ x' = x) saved.settings saved'.settings := by
  rcases h with rfl | ⟨enabled, es, es', hes, hes', hall⟩
  · exact ⟨saved', hsaved', rfl, .refl fun _ _ ↦ rfl⟩
  · obtain ⟨enabled', fs', hparts, hon, hread⟩ := ofToml?_eq_some_iff.mp hsaved'
    cases hes'.symm.trans hparts
    have hpadded := hall.padded (ordered_of_parts? hv hes) (ordered_of_parts? hv' hes')
    obtain ⟨fs, hfs, hbetween⟩ := hpadded.withoutMoments hPQ hread
    exact ⟨⟨saved'.enabled, fs⟩, ofToml?_eq_some_iff.mpr ⟨enabled, es, hes, hon, hfs⟩, rfl,
      hbetween⟩

/-- With the added settings, a section is one exactly if all of them have a form without moments. -/
theorem Extends.isSome_iff (h : Extends P v v') (hv : (ofToml? v).isSome) :
    (ofToml? v').isSome ↔ Plain v' := by
  obtain ⟨saved, hsaved⟩ := Option.isSome_iff_exists.mp hv
  obtain ⟨enabled, es, hes, hon, hread⟩ := ofToml?_eq_some_iff.mp hsaved
  -- the first field is that of a section
  obtain ⟨es', hes'⟩ : ∃ es', parts? v' = some (enabled, es') := by
    rcases h with rfl | ⟨enabled', fs, es', hfs, hes', -⟩
    · exact ⟨es, hes⟩
    · cases hes.symm.trans hfs
      exact ⟨es', hes'⟩
  constructor
  · intro hv' enabled' fs' hfs'
    cases hes'.symm.trans hfs'
    obtain ⟨saved', hsaved'⟩ := Option.isSome_iff_exists.mp hv'
    obtain ⟨enabled', fs, hfs, -, hread'⟩ := ofToml?_eq_some_iff.mp hsaved'
    cases hes'.symm.trans hfs
    exact Toml.entriesWithoutMoments?_isSome_iff.mp (Option.isSome_iff_exists.mpr ⟨_, hread'⟩)
  · intro hplain
    have hsome := Toml.entriesWithoutMoments?_isSome_iff.mpr (hplain enabled es' hes')
    obtain ⟨fs, hfs⟩ := Option.isSome_iff_exists.mp hsome
    exact Option.isSome_iff_exists.mpr
      ⟨⟨saved.enabled, fs⟩, ofToml?_eq_some_iff.mpr ⟨enabled, es', hes', hon, hfs⟩⟩

end Section

namespace Manager

variable {m m₁ : Manager} {h h' : Host} {d d' : Toml.Document} {name : String} {v v' : Toml.Value}

/-! ## What restoring never changes -/

/-- What the patches are and which settings they offer. -/
def outline (m : Manager) : List (Metadata × List Setting) := m.patches.map Patch.outline

/-- No section changes which patches there are and which settings they offer. -/
theorem outline_restoreSection (m : Manager) (name : String) (v : Toml.Value) (h : Host) :
    (m.restoreSection name v h).2.1.outline = m.outline := by
  unfold restoreSection
  split
  · rfl
  · rename_i saved _
    have hkept := forall₂_actFirst (S := fun q p ↦ p.outline = q.outline)
      (f := fun p s ↦ ((), p.restore saved s))
      (fun q p s hp ↦ (p.outline_restore saved s).trans hp) name
      (List.forall₂_same.mpr fun q (_ : q ∈ m.patches) ↦ rfl) ⟨m.resolver, h⟩
    have houtline := map_eq_of_forall₂ hkept
    unfold act
    generalize actFirst name (fun p s ↦ ((), p.restore saved s)) m.patches ⟨m.resolver, h⟩ = done
      at houtline
    obtain ⟨_ | u, patches, s⟩ := done
    · exact houtline
    · exact houtline

theorem find?_of_outline_eq (houtline : m₁.outline = m.outline) (name : String) :
    (m₁.find? name).map Patch.outline = (m.find? name).map Patch.outline := by
  have hfind (m : Manager) : (m.find? name).map Patch.outline =
      m.outline.find? fun o ↦ o.1.name == name := by
    rw [outline, List.find?_map]
    rfl
  rw [hfind, hfind, houtline]

/-! ## One section -/

/-- The patch of that name has no setting for the value, or one that does not take it. A moment
counts as its text. -/
def PassesOver (m : Manager) (name : String) (e : String × Toml.Value) : Prop :=
  ∀ p, m.find? name = some p → ∀ w, e.2.withoutMoments? = some w → p.PassesOver (e.1, w)

theorem PassesOver.of_outline_eq {e : String × Toml.Value} (he : m.PassesOver name e)
    (houtline : m₁.outline = m.outline) : m₁.PassesOver name e := by
  intro p hp w hw
  have hfind := find?_of_outline_eq houtline name
  rw [hp, Option.map_some] at hfind
  obtain ⟨q, hq, hsame⟩ := Option.map_eq_some_iff.mp hfind.symm
  exact Patch.passesOver_of_outline_eq hsame.symm (he q hq w hw)

def counts (m : Manager) (e : String × Toml.Value) : Bool :=
  (m.find? e.1).isSome && (Section.ofToml? e.2).isSome

theorem counts_of_outline_eq (houtline : m₁.outline = m.outline) : m₁.counts = m.counts := by
  funext e
  have hfind := congrArg Option.isSome (find?_of_outline_eq houtline e.1)
  rw [Option.isSome_map, Option.isSome_map] at hfind
  rw [counts, counts, hfind]

theorem counts_eq_true_iff : m.counts (name, v) = true ↔
    ∃ p saved, m.find? name = some p ∧ Section.ofToml? v = some saved := by
  rw [counts, Bool.and_eq_true, Option.isSome_iff_exists, Option.isSome_iff_exists]
  exact ⟨fun ⟨⟨p, hp⟩, saved, hsaved⟩ ↦ ⟨p, saved, hp, hsaved⟩,
    fun ⟨p, saved, hp, hsaved⟩ ↦ ⟨⟨p, hp⟩, saved, hsaved⟩⟩

theorem act_of_find?_eq_none {α : Type} (hm : m.find? name = none)
    (f : Patch → Site → α × Patch × Site) (h : Host) : m.act name f h = (none, m, h) := by
  have hnone {ps : List Patch} (hps : ∀ p ∈ ps, p.name ≠ name) (s : Site) :
      actFirst name f ps s = (none, ps, s) := by
    induction ps with
    | nil => rfl
    | cons p ps ih =>
        obtain ⟨hp, hrest⟩ := List.forall_mem_cons.mp hps
        rw [actFirst, if_neg hp, ih hrest]
  rw [act, hnone fun p hp ↦ by simpa using List.find?_eq_none.mp hm p hp]

/-- The patch that is found is the only one that acts. -/
theorem act_of_find? {p : Patch} (hp : m.find? name = some p) :
    ∃ front back, ∀ {α : Type} (f : Patch → Site → α × Patch × Site) (h : Host),
      m.act name f h = (some (f p ⟨m.resolver, h⟩).1,
        { m with
          resolver := (f p ⟨m.resolver, h⟩).2.2.resolver
          patches := front ++ (f p ⟨m.resolver, h⟩).2.1 :: back },
        (f p ⟨m.resolver, h⟩).2.2.host) := by
  obtain ⟨hname, front, back, hsplit, hfront⟩ := List.find?_eq_some_iff_append.mp hp
  obtain rfl : p.name = name := by simpa using hname
  refine ⟨front, back, fun f h ↦ ?_⟩
  have hnone : p.name ∉ front.map Patch.name := by
    intro hmem
    obtain ⟨q, hq, hsame⟩ := List.mem_map.mp hmem
    simpa [hsame] using hfront q hq
  rw [act, hsplit, actFirst_eq (s := ⟨m.resolver, h⟩) hnone rfl]

/-- A section that does not restore a patch is only reported. -/
theorem restoreSection_of_not_counts (hv : m.counts (name, v) = false) (h : Host) :
    ∃ message, m.restoreSection name v h = (false, m, h.note .warn message) := by
  unfold restoreSection
  cases hsaved : Section.ofToml? v with
  | none => exact ⟨_, rfl⟩
  | some saved =>
      have hfind : m.find? name = none := by
        cases hfind : m.find? name with
        | none => rfl
        | some p => simp [counts, hfind, hsaved] at hv
      dsimp only
      rw [act_of_find?_eq_none hfind]
      exact ⟨_, rfl⟩

/-- A section that restores a patch. -/
theorem restoreSection_of_counts {p : Patch} (hp : m.find? name = some p) :
    ∃ front back, ∀ v saved h, Section.ofToml? v = some saved →
      m.restoreSection name v h = (true,
        { m with
          resolver := (p.restore saved ⟨m.resolver, h⟩).2.resolver
          patches := front ++ (p.restore saved ⟨m.resolver, h⟩).1 :: back },
        (p.restore saved ⟨m.resolver, h⟩).2.host) := by
  obtain ⟨front, back, hact⟩ := act_of_find? hp
  refine ⟨front, back, fun v saved h hsaved ↦ ?_⟩
  rw [restoreSection, hsaved]
  dsimp only
  rw [hact]

theorem restoreSection_fst (m : Manager) (name : String) (v : Toml.Value) (h : Host) :
    (m.restoreSection name v h).1 = m.counts (name, v) := by
  cases hcounts : m.counts (name, v) with
  | false =>
      obtain ⟨message, heq⟩ := restoreSection_of_not_counts hcounts h
      rw [heq]
  | true =>
      obtain ⟨p, saved, hp, hsaved⟩ := counts_eq_true_iff.mp hcounts
      obtain ⟨front, back, heq⟩ := restoreSection_of_counts hp
      rw [heq v saved h hsaved]

/-- Settings that are passed over may be added to a section that stays one. -/
theorem restoreSection_extends (hs : SameButLog h h')
    (hv : Section.Extends (m.PassesOver name) v v') (hmeant : v.Meant) (hmeant' : v'.Meant)
    (hstays : m.counts (name, v) = true → m.counts (name, v') = true) :
    SameButLog (m.restoreSection name v h) (m.restoreSection name v' h') := by
  cases hcounts' : m.counts (name, v') with
  | false =>
      have hcounts : m.counts (name, v) = false := by
        by_contra hnot
        rw [hstays (by simpa using hnot)] at hcounts'
        cases hcounts'
      obtain ⟨message, heq⟩ := restoreSection_of_not_counts hcounts h
      obtain ⟨message', heq'⟩ := restoreSection_of_not_counts hcounts' h'
      rw [heq, heq']
      have hnoted := (hs.note_left .warn message).note_right .warn message'
      exact SameButLog.mk_iff.mpr ⟨rfl, SameButLog.mk_iff.mpr ⟨rfl, hnoted⟩⟩
  | true =>
      obtain ⟨p, saved', hp, hsaved'⟩ := counts_eq_true_iff.mp hcounts'
      obtain ⟨front, back, heq⟩ := restoreSection_of_counts hp
      obtain ⟨saved, hsaved, henabled, hpadded⟩ :=
        hv.padded (Q := p.PassesOver) hmeant hmeant' (fun k x y hx ↦ hx p hp y) hsaved'
      have hsite : SameButLog (Site.mk m.resolver h) (Site.mk m.resolver h') :=
        SameButLog.site_iff.mpr ⟨rfl, hs⟩
      have hrestore := Patch.restore_padded henabled hpadded (fun e he ↦ he) hsite
      rw [heq v saved h hsaved, heq v' saved' h' hsaved']
      generalize p.restore saved ⟨m.resolver, h⟩ = done at hrestore
      generalize p.restore saved' ⟨m.resolver, h'⟩ = done' at hrestore
      obtain ⟨p₁, s₁⟩ := done
      obtain ⟨p₁', s₁'⟩ := done'
      obtain ⟨rfl, hs₁⟩ := SameButLog.mk_iff.mp hrestore
      obtain ⟨hresolver, hhost⟩ := SameButLog.site_iff.mp hs₁
      dsimp only
      rw [hresolver]
      exact SameButLog.mk_iff.mpr ⟨rfl, SameButLog.mk_iff.mpr ⟨rfl, hhost⟩⟩

/-! ## All sections -/

theorem restoreSections_fst (m : Manager) (d : Toml.Document) (h : Host) :
    (m.restoreSections d h).1 = d.countP m.counts := by
  induction d generalizing m h with
  | nil => rfl
  | cons e d ih =>
      obtain ⟨name, v⟩ := e
      have hfst := m.restoreSection_fst name v h
      have houtline := m.outline_restoreSection name v h
      rw [restoreSections]
      generalize m.restoreSection name v h = done at hfst houtline
      obtain ⟨restored, m₁, h₁⟩ := done
      dsimp only at hfst houtline ⊢
      rw [ih m₁ h₁, counts_of_outline_eq houtline, hfst, List.countP_cons]
      split <;> rfl

/-- Sections that restore nothing are put in between, and settings that are passed over are added to
others, all of which stay sections. -/
theorem restoreSections_padded (hs : SameButLog h h') (houtline : m₁.outline = m.outline)
    (hpadded : Toml.Padded (fun e ↦ m.counts e = false)
      (fun name v v' ↦ (Section.Extends (m.PassesOver name) v v' ∧ v.Meant ∧ v'.Meant) ∧
        (m.counts (name, v) = true → m.counts (name, v') = true)) d d') :
    SameButLog (m₁.restoreSections d h) (m₁.restoreSections d' h') := by
  induction hpadded generalizing m₁ h h' with
  | nil => exact SameButLog.mk_iff.mpr ⟨rfl, SameButLog.mk_iff.mpr ⟨rfl, hs⟩⟩
  | @added e d d' he _ ih =>
      obtain ⟨name, v⟩ := e
      rw [← counts_of_outline_eq houtline] at he
      obtain ⟨message, heq⟩ := restoreSection_of_not_counts he h'
      have hrest : m₁.restoreSections ((name, v) :: d') h' =
          m₁.restoreSections d' (h'.note .warn message) := by
        rw [restoreSections, heq]
        rfl
      rw [hrest]
      exact ih (hs.note_right ..) houtline
  | @kept name v v' d d' hv _ ih =>
      obtain ⟨⟨hall, hmeant, hmeant'⟩, hstays⟩ := hv
      rw [← counts_of_outline_eq houtline] at hstays
      have hsection := restoreSection_extends hs
        (hall.imp fun e he ↦ he.of_outline_eq houtline) hmeant hmeant' hstays
      have hkept := (m₁.outline_restoreSection name v h).trans houtline
      rw [restoreSections, restoreSections]
      generalize m₁.restoreSection name v h = done at hsection hkept
      generalize m₁.restoreSection name v' h' = done' at hsection
      obtain ⟨restored, m₂, h₁⟩ := done
      obtain ⟨restored', m₂', h₁'⟩ := done'
      obtain ⟨rfl, hrest⟩ := SameButLog.mk_iff.mp hsection
      obtain ⟨rfl, hs₁⟩ := SameButLog.mk_iff.mp hrest
      have hfollowing := ih hs₁ hkept
      dsimp only
      generalize m₂'.restoreSections d h₁ = done at hfollowing
      generalize m₂'.restoreSections d' h₁' = done' at hfollowing
      obtain ⟨count, m₃, h₂⟩ := done
      obtain ⟨count', m₃', h₂'⟩ := done'
      obtain ⟨rfl, hlast⟩ := SameButLog.mk_iff.mp hfollowing
      exact SameButLog.mk_iff.mpr ⟨rfl, hlast⟩

/-! ## Loading -/

/-- The second document holds what the first one does and further sections, of patches that are not
there or under new names and no sections, and further settings that are passed over. -/
def Pads (m : Manager) (d d' : Toml.Document) : Prop :=
  Toml.Extends (fun e ↦ m.find? e.1 = none ∨ Section.ofToml? e.2 = none)
    (fun name ↦ Section.Extends (m.PassesOver name)) d d'

/-- The sections of the second document count for nothing, or they extend those of the first. -/
theorem Pads.padded {text text' : String} (hd : m.Pads d d')
    (hread : Toml.Document.read? text = some d) (hread' : Toml.Document.read? text' = some d') :
    Toml.Padded (fun e ↦ m.counts e = false)
      (fun name v v' ↦ Toml.lookup name d = some v ∧ Toml.lookup name d' = some v' ∧
        Section.Extends (m.PassesOver name) v v' ∧ v.Meant ∧ v'.Meant) d d' := by
  obtain ⟨hordered, hmeant⟩ := Toml.Document.meant_of_read hread
  obtain ⟨hordered', hmeant'⟩ := Toml.Document.meant_of_read hread'
  refine Toml.Extends.padded ⟨fun name v hv ↦ ?_, fun name v hv hnone ↦ ?_⟩ hordered hordered'
  · obtain ⟨v', hv', hall⟩ := hd.kept name v hv
    exact ⟨v', hv', hv, hv', hall, hmeant _ (Toml.mem_of_lookup hv),
      hmeant' _ (Toml.mem_of_lookup hv')⟩
  · rcases hd.added name v hv hnone with hnone | hnone
    · simp [counts, hnone]
    · simp [counts, hnone]

theorem load_of_read {text : String} (hread : Toml.Document.read? text = some d) (h : Host) :
    m.load text h = (some (m.restoreSections d h).1, (m.restoreSections d h).2.1,
      (m.restoreSections d h).2.2.note .info
        s!"Restored state of {(m.restoreSections d h).1} patch(es)") := by
  rw [load, hread]
  rfl

/-- A document with more in it is loaded like the one without, up to what is reported, exactly if
each section that restores a patch has settings with a form without moments only. -/
theorem load_pads_iff {text text' : String} (hread : Toml.Document.read? text = some d)
    (hread' : Toml.Document.read? text' = some d') (hd : m.Pads d d') (h : Host) :
    ((m.load text' h).1 = (m.load text h).1 ∧ (m.load text' h).2.1 = (m.load text h).2.1 ∧
      (m.load text' h).2.2 = { (m.load text h).2.2 with log := (m.load text' h).2.2.log }) ↔
    ∀ name v v', Toml.lookup name d = some v → Toml.lookup name d' = some v' →
      (m.find? name).isSome → (Section.ofToml? v).isSome → Section.Plain v' := by
  have hpadded := hd.padded hread hread'
  rw [load_of_read hread, load_of_read hread']
  constructor
  · rintro ⟨hcount, -, -⟩ name v v' hv hv' hfind hsection
    have hcounts : m.counts (name, v) = true := by rw [counts, hfind, hsection]; rfl
    -- as many sections restore a patch, so each that did so still does
    have hnumber : d'.countP m.counts = d.countP m.counts := by
      rw [← restoreSections_fst m d h, ← restoreSections_fst m d' h]
      exact Option.some.inj hcount
    have hstay := (hpadded.countP (fun _ he ↦ he) fun name v v' hR hc ↦ ?_).2 hnumber
    · obtain ⟨w, hw, ⟨-, -, hall, -⟩, hkept⟩ :=
        hstay.lookup (Toml.Document.meant_of_read hread').1 hv
      cases hv'.symm.trans hw
      have hcounts' := hkept hcounts
      rw [counts, Bool.and_eq_true] at hcounts'
      exact (hall.isSome_iff hsection).mp hcounts'.2
    · obtain ⟨p, saved', hp, hsaved'⟩ := counts_eq_true_iff.mp hc
      obtain ⟨-, -, hall, hmeant, hmeant'⟩ := hR
      obtain ⟨saved, hsaved, -⟩ := hall.padded (Q := fun _ ↦ True) hmeant hmeant'
        (fun _ _ _ _ _ ↦ trivial) hsaved'
      exact counts_eq_true_iff.mpr ⟨p, saved, hp, hsaved⟩
  · intro hplain
    have hsame := restoreSections_padded (SameButLog.refl h) rfl
      (hpadded.imp fun name v v' ⟨hv, hv', hall, hmeant, hmeant'⟩ ↦ ⟨⟨hall, hmeant, hmeant'⟩, ?_⟩)
    · generalize m.restoreSections d h = done at hsame
      generalize m.restoreSections d' h = done' at hsame
      obtain ⟨count, m₁, h₁⟩ := done
      obtain ⟨count', m₁', h₁'⟩ := done'
      obtain ⟨rfl, hrest⟩ := SameButLog.mk_iff.mp hsame
      obtain ⟨rfl, hs⟩ := SameButLog.mk_iff.mp hrest
      exact ⟨rfl, rfl, SameButLog.host_iff.mp ((hs.note_left ..).note_right ..)⟩
    · intro hcounts
      rw [counts, Bool.and_eq_true] at hcounts ⊢
      obtain ⟨hfind, hsection⟩ := hcounts
      exact ⟨hfind, (hall.isSome_iff hsection).mpr (hplain name v v' hv hv' hfind hsection)⟩

def enabledWith (es : List (String × Toml.Value)) : Toml.Value :=
  .table [("Enabled", .boolean true), ("Settings", .table es)]

theorem extends_enabledWith {P : String × Toml.Value → Prop} {es es' : List (String × Toml.Value)}
    (h : Toml.Padded P (fun _ x x' ↦ x' = x) es es') (hes' : Toml.Ordered es') :
    Section.Extends P (enabledWith es) (enabledWith es') :=
  .inr ⟨some (.boolean true), es, es', rfl, rfl, h.extends hes'⟩

theorem plain_enabledWith_iff {es : List (String × Toml.Value)} :
    Section.Plain (enabledWith es) ↔ ∀ e ∈ es, e.2.withoutMoments?.isSome := by
  refine ⟨fun h ↦ h (some (.boolean true)) es rfl, fun h enabled es' hparts ↦ ?_⟩
  cases hparts
  exact h

def unpaced : Manager := ((new pacing (.new .unknown ⟨0, 0⟩)).instantiate .onePage).2.1

/-- There is no such setting. -/
theorem passesOver_vsync (v : Toml.Value) : unpaced.PassesOver "Pacing" ("Vsync", v) := by
  intro p hp w hw x hx
  obtain rfl := Option.some.inj hp
  cases hx

/-- What was saved of the first patch, behind a section of no patch and a number in place of the
section of the second patch, with text for a truth value and a time for what is no setting. -/
def littered : String :=
  "Idle = 3\n\n[Ghost]\nEnabled = true\n\n[Pacing]\nEnabled = true\n\n" ++
    "[Pacing.Settings]\nFps = 240\nMode = \"High\"\nSync = \"on\"\nVsync = 12:00:00\n"

def litteredDocument : Toml.Document :=
  [("Ghost", .table [("Enabled", .boolean true)]), ("Idle", .integer 3),
    ("Pacing", enabledWith [("Fps", .integer 240), ("Mode", .string "High"),
      ("Sync", .string "on"), ("Vsync", .moment "12:00:00")])]

theorem read_littered : Toml.Document.read? littered = some litteredDocument := by
  decide +kernel

/-- All of it makes no difference. -/
theorem load_littered :
    (unpaced.load littered .onePage).1 = (unpaced.load paced.save .onePage).1 ∧
      (unpaced.load littered .onePage).2.1 = (unpaced.load paced.save .onePage).2.1 ∧
      (unpaced.load littered .onePage).2.2 = { (unpaced.load paced.save .onePage).2.2 with
        log := (unpaced.load littered .onePage).2.2.log } := by
  have hread := read_paced
  rw [document_paced] at hread
  have hsync : unpaced.PassesOver "Pacing" ("Sync", .string "on") := by
    intro p hp w hw x hx
    obtain rfl := Option.some.inj hp
    obtain rfl := Option.some.inj hw
    obtain rfl := Option.some.inj hx
    rfl
  have hsettings : Toml.Padded (unpaced.PassesOver "Pacing") (fun _ x x' ↦ x' = x)
      [("Fps", .integer 240), ("Mode", .string "High")]
      [("Fps", .integer 240), ("Mode", .string "High"), ("Sync", .string "on"),
        ("Vsync", .moment "12:00:00")] :=
    .kept rfl (.kept rfl (.added hsync (.added (passesOver_vsync _) .nil)))
  have hsection := extends_enabledWith hsettings (by unfold Toml.Ordered; decide)
  have hpads : unpaced.Pads [("Pacing", enabledWith _)] litteredDocument :=
    Toml.Padded.extends (.added (.inl rfl) (.added (.inr rfl) (.kept hsection .nil)))
      (by unfold Toml.Ordered; decide)
  refine (load_pads_iff hread read_littered hpads .onePage).mpr ?_
  intro name v v' hv hv' _ _
  obtain rfl : "Pacing" = name := by
    by_contra hne
    rw [Toml.lookup, if_neg hne] at hv
    cases hv
  obtain rfl := Option.some.inj hv'
  exact plain_enabledWith_iff.mpr (by decide)

/-- What was saved of the first patch, and a table that ends with what stands for a time. -/
def spoiled : String :=
  "[Pacing]\nEnabled = true\n\n[Pacing.Settings]\nFps = 240\nMode = \"High\"\n\n" ++
    "[Pacing.Settings.Vsync]\nrate = 1\n\"$__toml_private_datetime\" = \"12:00:00\"\n"

def spoiledDocument : Toml.Document :=
  [("Pacing", enabledWith [("Fps", .integer 240), ("Mode", .string "High"),
    ("Vsync", .table [(Toml.reservedKey, .string "12:00:00"), ("rate", .integer 1)])])]

theorem read_spoiled : Toml.Document.read? spoiled = some spoiledDocument := by
  decide +kernel

/-- With a value of no setting the whole section is lost. -/
theorem load_spoiled :
    unpaced.Pads paced.document spoiledDocument ∧
      ((unpaced.load paced.save .onePage).1 = some 1 ∧
        (unpaced.load paced.save .onePage).2.1.patches.map shown =
          [("Pacing", true, [("Sync", .bool true), ("Fps", .int 240), ("Mode", .choice 1)]),
            ("Idle", false, [])]) ∧
      (unpaced.load spoiled .onePage).1 = some 0 ∧
        (unpaced.load spoiled .onePage).2.1.patches.map shown =
          [("Pacing", false, [("Sync", .bool true), ("Fps", .int 60), ("Mode", .choice 0)]),
            ("Idle", false, [])] := by
  have hsettings : Toml.Padded (unpaced.PassesOver "Pacing") (fun _ x x' ↦ x' = x)
      [("Fps", .integer 240), ("Mode", .string "High")]
      [("Fps", .integer 240), ("Mode", .string "High"),
        ("Vsync", .table [(Toml.reservedKey, .string "12:00:00"), ("rate", .integer 1)])] :=
    .kept rfl (.kept rfl (.added (passesOver_vsync _) .nil))
  have hsection := extends_enabledWith hsettings (by unfold Toml.Ordered; decide)
  rw [load_of_read read_paced, load_of_read read_spoiled, document_paced]
  refine ⟨Toml.Padded.extends (.kept hsection .nil) (by unfold Toml.Ordered; decide), ?_⟩
  decide +kernel

end Manager

end HotPatch
