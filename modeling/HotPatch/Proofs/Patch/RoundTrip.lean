import HotPatch.Proofs.Patch.Traceless
import HotPatch.Proofs.Setting.Alternation

/-!
# Installing for the sake of the settings

A body may write nothing and leave everything to its settings. What such a patch put into memory can
be taken out again exactly if its settings can be restored in the order in which they were written.
-/

namespace HotPatch

open Host Change

/-! ## Bodies that write nothing -/

def Edit.Inert : Edit → Prop
  | .done | .fail _ | .abort _ => True
  | .commit next => next.Inert
  | .rollback next => ∀ r, (next r).Inert
  | .write .. | .poke .. => False

def Program.Inert : Program → Prop
  | .done | .fail _ | .abort _ => True
  | .resolve _ next => ∀ r, (next r).Inert
  | .transaction e next => e.Inert ∧ ∀ r, (next r).Inert
  | .hooks plans next => plans = [] ∧ ∀ r, (next r).Inert
  | .inspect next => ∀ c, (next c).Inert
  | .report _ next => next.Inert
  | .poke .. => False

theorem Transaction.rollback_of_nil {t : Transaction} (ht : t.records = []) (h : Host) :
    ∃ t', t.rollback h = (.ok (), t', h) ∧ t'.records = [] := by
  by_cases hphase : t.phase = .rolledBack
  · exact ⟨t, rollback_of_rolledBack hphase h, ht⟩
  · have hu : Unwinds h.memory t.records h.memory := by
      rw [ht]
      exact .nil _
    exact ⟨_, rollback_eq_ok hphase hu, ht⟩

theorem Transaction.release_of_nil {t : Transaction} (ht : t.records = []) (h : Host) :
    t.release h = h := by
  rw [release, if_neg fun hand ↦ hand.2 ht]

theorem Edit.Inert.run {e : Edit} (he : e.Inert) {t : Transaction} (ht : t.records = [])
    (h : Host) : ∃ o t', e.run t h = (o, t', h) ∧ t'.records = [] := by
  induction e generalizing t with
  | done => exact ⟨_, t, rfl, ht⟩
  | fail => exact ⟨_, t, rfl, ht⟩
  | abort => exact ⟨_, t, rfl, ht⟩
  | write => exact he.elim
  | commit next ih => exact ih he ht
  | rollback next ih =>
      obtain ⟨t', heq, ht'⟩ := Transaction.rollback_of_nil ht h
      rw [Edit.run, heq]
      exact ih _ (he _) ht'
  | poke => exact he.elim

namespace Program

/-- An edit that asks for no write is recorded without records, if at all. -/
theorem transact_inert {e : Edit} (he : e.Inert) (changes : List Change) (h : Host) :
    ∃ o new, transact e changes h = (o, changes ++ new, h) ∧ ∀ c ∈ new, c.InForce [] := by
  obtain ⟨o, t, hrun, ht⟩ := he.run (t := .empty) rfl h
  rw [transact, hrun]
  cases o with
  | done =>
      have hforce : InForce (.writes t.commit) t.commit.records := .writes rfl
      rw [show t.commit.records = [] from ht] at hforce
      exact ⟨_, [.writes t.commit], rfl, List.forall_mem_singleton.mpr hforce⟩
  | failed e' =>
      obtain ⟨t', heq, ht'⟩ := Transaction.rollback_of_nil ht h
      simp only [heq, Transaction.release_of_nil ht']
      exact ⟨_, [], by rw [List.append_nil], List.forall_mem_nil _⟩
  | aborted message =>
      simp only [Transaction.release_of_nil ht]
      exact ⟨_, [], by rw [List.append_nil], List.forall_mem_nil _⟩

theorem hook_nil (changes : List Change) (h : Host) :
    ∃ message,
      hook [] changes h = (.ok (), changes ++ [.hooks ⟨[], true⟩], h.note .debug message) :=
  ⟨_, rfl⟩

end Program

theorem Change.revertible_of_inForce_nil {cs : List Change} (hcs : ∀ c ∈ cs, c.InForce [])
    {h h' : Host} (hsame : SameMemory h h') : Revertible SameMemory cs h h' := by
  induction cs generalizing h with
  | nil => exact .nil hsame tolerant_sameMemory
  | cons c cs ih =>
      obtain ⟨hc, hrest⟩ := List.forall_mem_cons.mp hcs
      have hfirst : Revertible SameMemory [c] h h := by
        refine .single tolerant_sameMemory hc fun h₃ hbeyond ↦ ⟨h₃.memory, .nil _, hbeyond⟩
      exact hfirst.append (ih hrest hsame)

/-- What a body records that writes nothing says nothing about memory. -/
theorem Program.Inert.run {p : Program} (hp : p.Inert) (settings : List Setting)
    (changes : List Change) (s : Site) :
    ∃ o new s', p.run settings changes s = (o, changes ++ new, s') ∧
      (∀ c ∈ new, c.InForce []) ∧ SameMemory s.host s'.host := by
  induction p generalizing changes s with
  | done => exact ⟨_, [], s, by rw [Program.run, List.append_nil], nofun, rfl⟩
  | fail e => exact ⟨_, [], s, by rw [Program.run, List.append_nil], nofun, rfl⟩
  | abort message => exact ⟨_, [], s, by rw [Program.run, List.append_nil], nofun, rfl⟩
  | resolve t next ih =>
      have hsame := (s.resolve_quiet t).memory
      rcases hresolve : s.resolve t with ⟨e | found, s₁⟩
      · rw [hresolve] at hsame
        obtain ⟨o, new, s', heq, hnew, hsame'⟩ := ih (.error e) (hp _) changes s₁
        exact ⟨o, new, s', by rw [Program.run, hresolve]; exact heq, hnew, hsame'.trans hsame⟩
      · rw [hresolve] at hsame
        obtain ⟨o, new, s', heq, hnew, hsame'⟩ := ih (.ok found.address) (hp _) changes s₁
        exact ⟨o, new, s', by rw [Program.run, hresolve]; exact heq, hnew, hsame'.trans hsame⟩
  | transaction e next ih =>
      obtain ⟨o, new, htransact, hnew⟩ := transact_inert hp.1 changes s.host
      rw [Program.run, htransact]
      cases o with
      | aborted message => exact ⟨_, new, s, rfl, hnew, rfl⟩
      | done =>
          obtain ⟨o, new', s', heq, hnew', hsame⟩ := ih (.ok ()) (hp.2 _) (changes ++ new) s
          exact ⟨o, new ++ new', s', by rw [← List.append_assoc]; exact heq,
            List.forall_mem_append.mpr ⟨hnew, hnew'⟩, hsame⟩
      | failed e' =>
          obtain ⟨o, new', s', heq, hnew', hsame⟩ := ih (.error e') (hp.2 _) (changes ++ new) s
          exact ⟨o, new ++ new', s', by rw [← List.append_assoc]; exact heq,
            List.forall_mem_append.mpr ⟨hnew, hnew'⟩, hsame⟩
  | hooks plans next ih =>
      obtain ⟨rfl, hnext⟩ := hp
      obtain ⟨message, hhook⟩ := hook_nil changes s.host
      have hforce : InForce (.hooks ⟨[], true⟩) [] := .hooks ⟨rfl, .nil⟩
      obtain ⟨o, new, s', heq, hnew, hsame⟩ := ih (.ok ()) (hnext _)
        (changes ++ [.hooks ⟨[], true⟩]) { s with host := s.host.note .debug message }
      refine ⟨o, .hooks ⟨[], true⟩ :: new, s', ?_, List.forall_mem_cons.mpr ⟨hforce, hnew⟩, hsame⟩
      rw [List.append_cons changes (.hooks ⟨[], true⟩) new, Program.run, hhook]
      exact heq
  | inspect next ih =>
      rw [Program.run]
      exact ih _ (hp _) changes s
  | report e next ih =>
      rw [Program.run]
      exact ih hp changes { s with host := s.host.report e }
  | poke => exact hp.elim

namespace Patch

variable {p : Patch} {s s₁ : Site} {cs : List Change}

/-- The version is supported and the body succeeds, so the settings are written. -/
def WritesSettings (p : Patch) (s : Site) : Prop :=
  p.metadata.versions.contains s.resolver.version = true ∧
    ((p.body.install p.installs).run p.settings [] s).1 = .done

/-- Once the patch is installed it can be uninstalled, and if it cannot be installed none of its
settings is in memory; in the end memory is as it was. -/
def RoundTrips (p : Patch) (s : Site) : Prop :=
  match p.install s with
  | (true, p', s') =>
    (p'.uninstall s').1 = true ∧ (p'.uninstall s').2.2.host.memory = s.host.memory
  | (false, p', s') => Setting.Unwritten p'.settings ∧ s'.host.memory = s.host.memory

theorem settings_abandon (p : Patch) (cs : List Change) (e : PatchError) (s : Site) :
    (p.abandon cs e s).1 = false ∧
      (p.abandon cs e s).2.1.settings = (Setting.restoreAll p.settings s).2.1 := by
  unfold abandon
  rcases Setting.restoreAll p.settings s with ⟨r, xs, s₁⟩
  simp only
  split <;> exact ⟨rfl, rfl⟩

theorem uninstall_of_restoreAll_error (henabled : p.enabled = true) {e : SettingError}
    {xs : List Setting} (hrestore : Setting.restoreAll p.settings s = (.error e, xs, s₁)) :
    (p.uninstall s).1 = false := by
  unfold uninstall
  rw [if_neg (by simp [henabled])]
  simp only [undo, hrestore]

/-- Settings that can be restored in order make a round trip. -/
theorem Clean.roundTrips (hp : p.Clean) {o : Outcome}
    (hrun : (p.body.install p.installs).run p.settings [] s = (o, cs, s₁))
    (hr : Revertible SameMemory cs s.host s₁.host)
    (hx : o = .done → Setting.Restorable SameMemory (Setting.writeAll p.settings s₁).2.1 s₁.host
      (Setting.writeAll p.settings s₁).2.2.host) : p.RoundTrips s := by
  obtain ⟨b, p', s', heq, -, ⟨rfl, hclean, hsame⟩ | ⟨rfl, hundoable, -⟩⟩ :=
    install_cases tolerant_sameMemory hp hrun hr hx
  · rw [RoundTrips, heq]
    exact ⟨hclean.settings, hsame⟩
  · obtain ⟨p'', s'', heq', -, -, hsame⟩ := hundoable s' rfl
    rw [RoundTrips, heq]
    simp only [heq']
    exact ⟨trivial, hsame⟩

theorem restorable_of_alternating {xs : List Setting} (hxs : ∀ x ∈ xs, x.InStep false)
    (halt : Setting.Alternating s.host.memory (xs.takeWhile (·.writable s.host.memory))) :
    Setting.Restorable SameMemory (Setting.writeAll xs s).2.1 s.host
      (Setting.writeAll xs s).2.2.host := by
  have hbytes := Setting.bytesAt_writeAll hxs (s := s) rfl
  obtain ⟨r, ys, s', m, hwrite, -, -, -, hw, hcalm⟩ := Setting.writeAll_of_off hxs s
  rw [hwrite] at hbytes ⊢
  intro h₃ hsame
  have hmemory : h₃.memory = m := hsame.trans hcalm.memory
  obtain ⟨n, hn⟩ : ∃ n, Rewrites m ((Setting.records ys).map UndoRecord.inverse) n := by
    rw [hw.exists_inOrder_iff]
    intro z
    rw [hbytes]
    exact halt z
  exact ⟨n, hmemory ▸ hn, hw.inOrder_eq hn⟩

/-- Restoring in the order of declaration gets stuck or goes wrong at a byte whose values do not
alternate. -/
theorem not_roundTrips (hdisabled : p.enabled = false) (hchanges : p.changes = [])
    (hversion : p.metadata.versions.contains s.resolver.version = true)
    (hrun : (p.body.install p.installs).run p.settings [] s = (.done, cs, s₁))
    (hsame : SameMemory s.host s₁.host) (hxs : ∀ x ∈ p.settings, x.InStep false)
    (hnot : ¬ Setting.Alternating s.host.memory
      (p.settings.takeWhile (·.writable s.host.memory))) : ¬ p.RoundTrips s := by
  have hbytes := Setting.bytesAt_writeAll hxs (congrArg Memory.page hsame)
  obtain ⟨r, ys, s₂, m, hwrite, -, -, -, hw, hcalm⟩ := Setting.writeAll_of_off hxs s₁
  rw [hwrite] at hbytes
  have hmemory : s₂.host.memory = m := hcalm.memory
  have hstays : ∀ n, ¬ Rewrites m ((Setting.records ys).map UndoRecord.inverse) n := by
    intro n hn
    refine hnot fun z ↦ ?_
    have halt := hw.exists_inOrder_iff.mp ⟨n, hn⟩ z
    rwa [hbytes, hsame] at halt
  rw [RoundTrips, install_eq_attempt hdisabled hchanges hversion, attempt, hrun]
  simp only [Outcome.toExcept, hwrite]
  cases r with
  | error e =>
      simp only
      obtain ⟨e', zs, s₃, hrestore, hlive⟩ :=
        Setting.restoreAll_error (s := s₂) (hmemory ▸ hstays)
      obtain ⟨hfailed, hsettings⟩ := settings_abandon
        { p with installs := p.installs + 1, settings := ys } cs (.setting e) s₂
      rw [hrestore] at hsettings
      revert hfailed hsettings
      generalize abandon _ _ _ _ = abandoned
      intro hfailed hsettings
      obtain ⟨b, p', s'⟩ := abandoned
      cases hfailed
      obtain rfl : p'.settings = zs := hsettings
      rintro ⟨hunwritten, -⟩
      exact hlive hunwritten
  | ok u =>
      rintro ⟨huninstalled, -⟩
      obtain ⟨e', zs, s₃, hrestore, -⟩ := Setting.restoreAll_error
        (s := s₂.note .info ("Installed " ++ p.name ++ s!" ({cs.length} change(s))"))
        (hmemory ▸ hstays)
      rw [uninstall_of_restoreAll_error rfl hrestore] at huninstalled
      cases huninstalled

/-- A disabled patch whose body writes nothing makes a round trip exactly if, should it come to
writing the settings, those up to the first that cannot be written have bytes that alternate at each
address. So it does if the settings do not overlap. -/
theorem roundTrips_iff (hdisabled : p.enabled = false) (hchanges : p.changes = [])
    (hxs : ∀ x ∈ p.settings, x.InStep false) (hbody : (p.body.install p.installs).Inert)
    (s : Site) :
    (p.RoundTrips s ↔ (p.WritesSettings s → Setting.Alternating s.host.memory
        (p.settings.takeWhile (·.writable s.host.memory)))) ∧
      (Setting.Apart p.settings → p.RoundTrips s) := by
  have hclean : p.Clean := ⟨hdisabled, hchanges, fun x hx ↦ (hxs x hx).live_eq_none⟩
  obtain ⟨o, cs, s₁, hrun, hcs, hsame⟩ := hbody.run p.settings [] s
  rw [List.nil_append] at hrun
  have hr := revertible_of_inForce_nil hcs hsame
  have hgo (halt : p.WritesSettings s → Setting.Alternating s.host.memory
      (p.settings.takeWhile (·.writable s.host.memory))) : p.RoundTrips s := by
    by_cases hversion : p.metadata.versions.contains s.resolver.version = true
    · refine hclean.roundTrips hrun hr fun hdone ↦ restorable_of_alternating hxs ?_
      rw [hsame]
      exact halt ⟨hversion, by rw [hrun, hdone]⟩
    · rw [RoundTrips, install, if_neg (by simp [hdisabled]), clearLeftovers_of_nil hchanges]
      simp only [if_neg hversion]
      exact ⟨hclean.settings, rfl⟩
  refine ⟨⟨?_, hgo⟩, ?_⟩
  · rintro hround ⟨hversion, hdone⟩
    rw [hrun] at hdone
    obtain rfl : o = .done := hdone
    by_contra hnot
    exact not_roundTrips hdisabled hchanges hversion hrun hsame hxs hnot hround
  · intro hap
    refine hgo fun _ ↦ Setting.Apart.alternating ?_ _
    exact hap.sublist ((List.takeWhile_sublist _).filterMap _)

def twoSwitches (a : Address) : Patch :=
  .ofBody (.named "A") (.ofProgram [(Setting.bool "x" true).bind ⟨.fixed 0, .u8⟩,
    (Setting.bool "y" true).bind ⟨.fixed a, .u8⟩] .done)

theorem inStep_twoSwitches (a : Address) : ∀ x ∈ (twoSwitches a).settings, x.InStep false :=
  List.forall_mem_cons.mpr
    ⟨.off rfl rfl rfl rfl, List.forall_mem_singleton.mpr (.off rfl rfl rfl rfl)⟩

theorem roundTrips_iff_twoSwitches :
    let s : Site := ⟨.new .unknown ⟨0, 0⟩, .onePage⟩
    (twoSwitches 1).RoundTrips s ∧ ¬ (twoSwitches 0).RoundTrips s := by
  intro s
  constructor
  · refine (roundTrips_iff rfl rfl (inStep_twoSwitches 1) trivial s).2 ?_
    refine List.pairwise_pair.mpr fun a a' ha ha' ↦ .inl ?_
    cases ha
    cases ha'
    decide
  · intro hround
    have halt := (roundTrips_iff rfl rfl (inStep_twoSwitches 0) trivial s).1.mp hround
      ⟨by decide +kernel, rfl⟩ 0
    revert halt
    decide +kernel

/-- Of two switches at one address the first cannot be restored before the second. -/
theorem uninstall_twoSwitches :
    let s : Site := ⟨.new .unknown ⟨0, 0⟩, .onePage⟩
    let installed := (twoSwitches 0).install s
    (∀ x ∈ (twoSwitches 0).settings, x.InStep false) ∧ (twoSwitches 0).body.install 0 = .done ∧
      installed.1 = true ∧ (installed.2.1.uninstall installed.2.2).1 = false ∧
        s.host.memory.byte 0 = 0 ∧
          (installed.2.1.uninstall installed.2.2).2.2.host.memory.byte 0 = 1 := by
  intro s installed
  exact ⟨inStep_twoSwitches 0, rfl, by decide +kernel, by decide +kernel, by decide +kernel,
    by decide +kernel⟩

end Patch

end HotPatch
