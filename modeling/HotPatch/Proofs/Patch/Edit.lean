import HotPatch.Proofs.Patch.Program
import HotPatch.Proofs.Patch.Undoing
import HotPatch.Proofs.Transaction.Rooted

/-!
# Edits that finish their transactions themselves

An edit may commit its transaction or roll it back at any point and go on. What it leaves can be
undone as long as the transaction, once the edit is over, knows of everything that is in memory and
of nothing else; otherwise the engine cannot help.
-/

namespace HotPatch

open Host Change

def Edit.Undisturbed : Edit → Prop
  | .done | .fail _ | .abort _ => True
  | .write _ next | .rollback next => ∀ r, (next r).Undisturbed
  | .commit next => next.Undisturbed
  | .poke .. => False

structure Transaction.Begun (m₀ : Memory) (t : Transaction) (m : Memory) : Prop where
  rooted : Rooted m₀ t.records m
  active : t.phase = .active → Unwinds m t.records m₀

namespace Transaction.Begun

variable {m₀ : Memory} {t : Transaction} {h : Host}

theorem empty (m : Memory) : Begun m .empty m := ⟨.nil m, fun _ ↦ .nil m⟩

theorem commit {m : Memory} (hb : Begun m₀ t m) : Begun m₀ t.commit m :=
  ⟨hb.rooted, fun hactive ↦ nomatch hactive⟩

theorem perform (hb : Begun m₀ t h.memory) (w : Write) :
    ∃ r t' h', t.perform w h = (r, t', h') ∧ Begun m₀ t' h'.memory := by
  rcases t.perform_cases w h with ⟨e, heq⟩ | ⟨r, hfit, -, -, message, heq⟩
  · exact ⟨_, t, h, heq, hb⟩
  · refine ⟨_, _, _, heq, hb.rooted.write hfit, fun hactive ↦ ?_⟩
    refine Unwinds.append_iff.mpr ⟨h.memory, ?_, hb.active hactive⟩
    exact (Rewrites.single hfit).unwinds

theorem rollback (hb : Begun m₀ t h.memory) :
    ∃ r t' h', t.rollback h = (r, t', h') ∧ Begun m₀ t' h'.memory := by
  by_cases hphase : t.phase = .rolledBack
  · exact ⟨_, t, h, rollback_of_rolledBack hphase h, hb⟩
  · rcases rollback_cases hphase h with ⟨m, hu, heq⟩ | ⟨-, e, heq⟩
    · refine ⟨_, _, _, heq, ?_, fun hactive ↦ nomatch hactive⟩
      rw [hb.rooted.eq_of_unwinds hu]
      exact hb.rooted.rewind
    · exact ⟨_, t, h, heq, hb⟩

end Transaction.Begun

/-- Whatever an undisturbed edit does, its transaction knows where it began. -/
theorem Edit.Undisturbed.run {e : Edit} (he : e.Undisturbed) {m₀ : Memory} {t : Transaction}
    {h : Host} (hb : t.Begun m₀ h.memory) : (e.run t h).2.1.Begun m₀ (e.run t h).2.2.memory := by
  induction e generalizing t h with
  | done => exact hb
  | fail => exact hb
  | abort => exact hb
  | write w next ih =>
      obtain ⟨r, t', h', heq, hb'⟩ := hb.perform w
      rw [Edit.run, heq]
      exact ih r (he r) hb'
  | commit next ih => exact ih he hb.commit
  | rollback next ih =>
      obtain ⟨r, t', h', heq, hb'⟩ := hb.rollback
      rw [Edit.run, heq]
      exact ih r (he r) hb'
  | poke => exact he.elim

/-- When the edit is over, what it did can be undone. An edit that succeeds is recorded, so all that
its transaction lists must be in memory. After a failure the transaction is rolled back unless it
was before, and after breaking off only if it is still open; otherwise memory has to be as it was
already. -/
def Edit.Tidy (e : Edit) (h : Host) : Prop :=
  match e.run .empty h with
  | (.done, t, h') => ∃ m, Unwinds h'.memory t.records m
  | (.failed _, t, h') => h'.memory = h.memory ∨
      t.phase ≠ .rolledBack ∧ ∃ m, Unwinds h'.memory t.records m
  | (.aborted _, t, h') => h'.memory = h.memory ∨ t.phase = .active

def SameMemory (h h' : Host) : Prop := h'.memory = h.memory

theorem tolerant_sameMemory : Tolerant SameMemory :=
  ⟨fun hq ↦ hq.memory, fun h₁₂ h₂₃ ↦ h₂₃.trans h₁₂⟩

namespace Program

variable {e : Edit} {t : Transaction} {h h₁ : Host}

/-- A failed edit leaves memory as it was exactly if it is tidy. -/
theorem transact_failed {e' : PatchError} (he : e.Undisturbed)
    (hrun : e.run .empty h = (.failed e', t, h₁)) (changes : List Change) :
    ∃ h', transact e changes h = (.failed e', changes, h') ∧
      Rooted h.memory t.records h'.memory ∧ (h'.memory = h.memory ↔ e.Tidy h) := by
  have hbegun := he.run (t := .empty) (h := h) (.empty h.memory)
  rw [hrun] at hbegun
  unfold transact Edit.Tidy
  rw [hrun]
  simp only
  by_cases hphase : t.phase = .rolledBack
  · rw [Transaction.rollback_of_rolledBack hphase]
    refine ⟨h₁, ?_, hbegun.rooted, ?_⟩
    · simp only
      rw [Transaction.release_of_not_active (by simp [hphase])]
    · simp [hphase]
  · rcases Transaction.rollback_cases hphase h₁ with ⟨m, hu, heq⟩ | ⟨hnot, r, heq⟩
    · rw [heq]
      have hstart := hbegun.rooted.eq_of_unwinds hu
      refine ⟨h₁.withMemory m, ?_, ?_, fun _ ↦ .inr ⟨hphase, m, hu⟩, fun _ ↦ hstart⟩
      · simp only
        rw [Transaction.release_of_not_active (by simp)]
      · rw [memory_withMemory, hstart]
        exact hbegun.rooted.rewind
    · -- an open transaction could have been undone
      have hclosed : t.phase ≠ .active := fun hactive ↦ hnot ⟨_, hbegun.active hactive⟩
      rw [heq]
      refine ⟨h₁.note .error ("Failed to roll back transaction: " ++ r.message), ?_,
        hbegun.rooted, ?_⟩
      · simp only
        rw [Transaction.release_of_not_active hclosed]
      · simp [hnot]

/-- An edit that breaks off leaves memory as it was exactly if it is tidy. -/
theorem transact_aborted {message : Option String} (he : e.Undisturbed)
    (hrun : e.run .empty h = (.aborted message, t, h₁)) (changes : List Change) :
    ∃ h', transact e changes h = (.aborted message, changes, h') ∧
      Rooted h.memory t.records h'.memory ∧ (h'.memory = h.memory ↔ e.Tidy h) := by
  have hbegun := he.run (t := .empty) (h := h) (.empty h.memory)
  rw [hrun] at hbegun
  unfold transact Edit.Tidy
  rw [hrun]
  by_cases hactive : t.phase = .active
  · refine ⟨h₁.withMemory h.memory, ?_, hbegun.rooted.rewind, by simp [hactive]⟩
    simp only
    rw [Transaction.release_of_active hactive (hbegun.active hactive)]
  · refine ⟨h₁, ?_, hbegun.rooted, by simp [hactive]⟩
    simp only
    rw [Transaction.release_of_not_active hactive]

/-- What a tidy edit leaves recorded can be reverted, and that leads to memory as it was. -/
theorem transact_tidy (he : e.Undisturbed) (htidy : e.Tidy h) (changes : List Change) :
    ∃ o new h', transact e changes h = (o, changes ++ new, h') ∧
      Revertible SameMemory new h h' := by
  have hnil {h' : Host} (hsame : h'.memory = h.memory) : Revertible SameMemory [] h h' :=
    .nil hsame tolerant_sameMemory
  rcases hrun : e.run .empty h with ⟨o, t, h₁⟩
  cases o with
  | done =>
      have hbegun := he.run (t := .empty) (h := h) (.empty h.memory)
      have hundone := htidy
      rw [Edit.Tidy, hrun] at hundone
      rw [hrun] at hbegun
      obtain ⟨m, hu⟩ := hundone
      refine ⟨.done, [.writes t.commit], h₁, by rw [transact, hrun],
        .single tolerant_sameMemory (.writes rfl) ?_⟩
      intro h₃ hsame
      rw [show h₃.memory = h₁.memory from hsame]
      exact ⟨m, hu, hbegun.rooted.eq_of_unwinds hu⟩
  | failed e' =>
      obtain ⟨h', heq, -, hiff⟩ := transact_failed he hrun changes
      exact ⟨_, [], h', by rw [heq, List.append_nil], hnil (hiff.mpr htidy)⟩
  | aborted message =>
      obtain ⟨h', heq, -, hiff⟩ := transact_aborted he hrun changes
      exact ⟨_, [], h', by rw [heq, List.append_nil], hnil (hiff.mpr htidy)⟩

end Program

/-! ## Whole bodies -/

/-- The body works through undisturbed transactions alone. -/
def Program.Transacts : Program → Prop
  | .done | .fail _ | .abort _ => True
  | .resolve _ next => ∀ r, (next r).Transacts
  | .transaction e next => e.Undisturbed ∧ ∀ r, (next r).Transacts
  | .inspect next => ∀ c, (next c).Transacts
  | .report _ next => next.Transacts
  | .hooks .. | .poke .. => False

def Program.Tidy (settings : List Setting) : Program → List Change → Site → Prop
  | .done, _, _ | .fail _, _, _ | .abort _, _, _ => True
  | .resolve t next, changes, s =>
    match s.resolve t with
    | (.ok found, s) => (next (.ok found.address)).Tidy settings changes s
    | (.error e, s) => (next (.error e)).Tidy settings changes s
  | .transaction e next, changes, s =>
    e.Tidy s.host ∧
      match transact e changes s.host with
      | (.done, changes, h) => (next (.ok ())).Tidy settings changes { s with host := h }
      | (.failed e, changes, h) => (next (.error e)).Tidy settings changes { s with host := h }
      | (.aborted _, _, _) => True
  | .hooks plans next, changes, s =>
    match hook plans changes s.host with
    | (r, changes, h) => (next r).Tidy settings changes { s with host := h }
  | .inspect next, changes, s =>
    (next ⟨s.resolver.version, s.resolver.image, settings, changes.length⟩).Tidy settings changes s
  | .report e next, changes, s =>
    next.Tidy settings changes { s with host := s.host.report e }
  | .poke a bs next, changes, s =>
    next.Tidy settings changes { s with host := s.host.poke a bs }

/-- Whatever a body of tidy edits recorded can be reverted, and that leads to memory as it was. -/
theorem Program.Transacts.run {p : Program} (hp : p.Transacts) (settings : List Setting)
    (changes : List Change) (s : Site) (htidy : p.Tidy settings changes s) :
    ∃ o new s', p.run settings changes s = (o, changes ++ new, s') ∧
      Revertible SameMemory new s.host s'.host := by
  have hquiet {h h' : Host} {cs : List Change} (hsame : h'.memory = h.memory)
      {h'' : Host} (hr : Revertible SameMemory cs h' h'') : Revertible SameMemory cs h h'' := by
    have hnil : Revertible SameMemory [] h h' := .nil hsame tolerant_sameMemory
    exact hnil.append hr
  have hstop (s : Site) : Revertible SameMemory [] s.host s.host := .nil rfl tolerant_sameMemory
  induction p generalizing changes s with
  | done => exact ⟨_, [], s, by rw [Program.run, List.append_nil], hstop s⟩
  | fail e => exact ⟨_, [], s, by rw [Program.run, List.append_nil], hstop s⟩
  | abort message => exact ⟨_, [], s, by rw [Program.run, List.append_nil], hstop s⟩
  | resolve t next ih =>
      have hsame := (s.resolve_quiet t).memory
      unfold Program.Tidy at htidy
      rcases hresolve : s.resolve t with ⟨r, s₁⟩
      rw [hresolve] at hsame htidy
      rw [Program.run, hresolve]
      cases r with
      | ok found =>
          obtain ⟨o, new, s', heq, hr⟩ := ih _ (hp _) changes s₁ htidy
          exact ⟨o, new, s', heq, hquiet hsame hr⟩
      | error e =>
          obtain ⟨o, new, s', heq, hr⟩ := ih _ (hp _) changes s₁ htidy
          exact ⟨o, new, s', heq, hquiet hsame hr⟩
  | transaction e next ih =>
      rw [Program.Tidy] at htidy
      obtain ⟨hedit, hnext⟩ := htidy
      obtain ⟨o, new, h₁, htransact, hr⟩ := transact_tidy hp.1 hedit changes
      rw [htransact] at hnext
      rw [Program.run, htransact]
      cases o with
      | aborted message => exact ⟨_, new, _, rfl, hr⟩
      | done =>
          obtain ⟨o, new', s', heq, hr'⟩ := ih (.ok ()) (hp.2 _) (changes ++ new)
            { s with host := h₁ } hnext
          exact ⟨o, new ++ new', s', by rw [← List.append_assoc]; exact heq, hr.append hr'⟩
      | failed e =>
          obtain ⟨o, new', s', heq, hr'⟩ := ih (.error e) (hp.2 _) (changes ++ new)
            { s with host := h₁ } hnext
          exact ⟨o, new ++ new', s', by rw [← List.append_assoc]; exact heq, hr.append hr'⟩
  | hooks => exact hp.elim
  | inspect next ih =>
      rw [Program.run]
      exact ih _ (hp _) changes s htidy
  | report e next ih =>
      obtain ⟨o, new, s', heq, hr⟩ := ih hp changes { s with host := s.host.report e } htidy
      rw [Program.run]
      exact ⟨o, new, s', heq, hquiet rfl hr⟩
  | poke => exact hp.elim

/-! ## Bodies that only write -/

theorem Edit.Plain.undisturbed {e : Edit} (he : e.Plain) : e.Undisturbed := by
  induction e with
  | done => trivial
  | fail => trivial
  | abort => trivial
  | write w next ih =>
      intro r
      exact ih r (he r)
  | commit => exact he.elim
  | rollback => exact he.elim
  | poke => exact he.elim

theorem Edit.Plain.tidy {e : Edit} (he : e.Plain) (h : Host) : e.Tidy h := by
  obtain ⟨rs, m, hrecords, hw, hquiet⟩ := he.run .empty h
  rcases hrun : e.run .empty h with ⟨o, t, h'⟩
  rw [hrun] at hrecords hquiet
  simp only [Transaction.empty, List.nil_append] at hrecords
  have hactive : t.phase = .active := by rw [hrecords]
  have hu : Unwinds h'.memory t.records h.memory := by
    rw [hquiet.memory, hrecords]
    exact hw.unwinds
  rw [Edit.Tidy, hrun]
  cases o with
  | done => exact ⟨_, hu⟩
  | failed e' => exact .inr ⟨by simp [hactive], _, hu⟩
  | aborted message => exact .inr hactive

/-- A plain body is tidy, since each of its edits lists all that it wrote. -/
theorem Program.Plain.tidy {p : Program} (hplain : p.Plain) (hp : p.Transacts)
    (settings : List Setting) (changes : List Change) (s : Site) :
    p.Tidy settings changes s := by
  induction p generalizing changes s with
  | done => trivial
  | fail => trivial
  | abort => trivial
  | resolve t next ih =>
      rw [Program.Tidy]
      split
      · exact ih _ (hplain _) (hp _) changes _
      · exact ih _ (hplain _) (hp _) changes _
  | transaction e next ih =>
      rw [Program.Tidy]
      refine ⟨hplain.1.tidy s.host, ?_⟩
      split
      · exact ih _ (hplain.2 _) (hp.2 _) _ _
      · exact ih _ (hplain.2 _) (hp.2 _) _ _
      · trivial
  | hooks => exact hp.elim
  | inspect next ih => exact ih _ (hplain _) (hp _) changes s
  | report e next ih => exact ih hplain hp changes _
  | poke => exact hp.elim

end HotPatch
