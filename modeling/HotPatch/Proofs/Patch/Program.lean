import HotPatch.Patch.Basic
import HotPatch.Proofs.Patch.Change
import HotPatch.Proofs.Setting.Group

/-!
# What a body leaves behind

A plain body uses hooks that are not scripted and transactions that are only asked for writes. What
it recorded leads from memory as it was to memory as it is, whatever failed on the way.
-/

namespace HotPatch

open Host Change

def Body.ofProgram (settings : List Setting) (p : Program) : Body :=
  ⟨settings, fun _ ↦ p, fun _ ↦ .done, none, false, false⟩

/-- Only writes are asked for; what comes of them may decide how the edit goes on. -/
def Edit.Plain : Edit → Prop
  | .done | .fail _ | .abort _ => True
  | .write _ next => ∀ r, (next r).Plain
  | .commit _ | .rollback _ | .poke .. => False

/-- All edits are plain, no hook is scripted, and the host writes nothing in between. -/
def Program.Plain : Program → Prop
  | .done | .fail _ | .abort _ => True
  | .resolve _ next => ∀ r, (next r).Plain
  | .transaction e next => e.Plain ∧ ∀ r, (next r).Plain
  | .hooks plans next => (∀ p ∈ plans, p.Real) ∧ ∀ r, (next r).Plain
  | .inspect next => ∀ c, (next c).Plain
  | .report _ next => next.Plain
  | .poke .. => False

def Body.ofEdit (e : Edit) : Body := .ofProgram [] (.transaction e (Program.after .done))

theorem Edit.Plain.ofEdit {e : Edit} (he : e.Plain) (n : Nat) :
    ((Body.ofEdit e).install n).Plain := by
  refine ⟨he, fun r ↦ ?_⟩
  cases r with
  | ok u => trivial
  | error e => trivial

/-- The writes of a plain edit are added to its transaction, which stays open. -/
theorem Edit.Plain.run {e : Edit} (he : e.Plain) (t : Transaction) (h : Host) :
    ∃ rs m, (e.run t h).2.1 = { t with records := t.records ++ rs } ∧ Rewrites h.memory rs m ∧
      Quiet (h.withMemory m) (e.run t h).2.2 := by
  induction e generalizing t h with
  | done => exact ⟨[], h.memory, by rw [Edit.run, List.append_nil], .nil _, .refl h⟩
  | fail => exact ⟨[], h.memory, by rw [Edit.run, List.append_nil], .nil _, .refl h⟩
  | abort => exact ⟨[], h.memory, by rw [Edit.run, List.append_nil], .nil _, .refl h⟩
  | write w next ih =>
      rcases t.perform_cases w h with ⟨e, heq⟩ | ⟨r, hfit, -, -, message, heq⟩
      · rw [Edit.run, heq]
        exact ih (.error e) (he _) t h
      · rw [Edit.run, heq]
        obtain ⟨rs, m, hrecords, hw, hquiet⟩ := ih (.ok ()) (he _)
          { t with records := t.records ++ [r] } _
        have hmade : Quiet (h.withMemory m) (((h.withMemory (r.onto h.memory)).note .debug
            message).withMemory m) := .of_eq rfl rfl rfl
        refine ⟨r :: rs, m, ?_, .cons hfit hw, hmade.trans hquiet⟩
        rw [hrecords, List.append_assoc, List.singleton_append]
  | commit => exact he.elim
  | rollback => exact he.elim
  | poke => exact he.elim

namespace Program

variable {e : Edit} {h : Host}

/-- A transaction of plain writes is recorded as a whole or leaves memory as it was. -/
theorem transact_plain (he : e.Plain) (changes : List Change) (h : Host) :
    ∃ o new h', transact e changes h = (o, changes ++ new, h') ∧ Applies new h h' := by
  obtain ⟨rs, m, hrecords, hw, hquiet⟩ := he.run .empty h
  unfold transact
  rcases hrun : e.run .empty h with ⟨o, t, h₁⟩
  rw [hrun] at hrecords hquiet
  simp only [Transaction.empty, List.nil_append] at hrecords
  have hu : Unwinds h₁.memory t.records h.memory := by
    rw [hquiet.memory, hrecords]
    exact hw.unwinds
  have hback : Quiet h (h₁.withMemory h.memory) := hquiet.withMemory h.memory
  cases o with
  | done =>
      refine ⟨.done, [.writes t.commit], h₁, rfl, .single (.writes rfl) (.refl h) ?_ hquiet⟩
      rw [Transaction.records_commit, hrecords]
      exact hw
  | failed e =>
      have hopen : t.phase ≠ .rolledBack := by simp [hrecords]
      refine ⟨.failed e, [], h₁.withMemory h.memory, ?_, .nil hback.intact⟩
      simp only [Transaction.rollback_eq_ok hopen hu]
      rw [Transaction.release_of_not_active (by simp), List.append_nil]
  | aborted message =>
      have hactive : t.phase = .active := by rw [hrecords]
      refine ⟨.aborted message, [], h₁.withMemory h.memory, ?_, .nil hback.intact⟩
      simp only [Transaction.release_of_active hactive hu, List.append_nil]

/-- A batch is recorded with all of its hooks in place or keeps to the pool. -/
theorem hook_real {plans : List HookPlan} (hreal : ∀ p ∈ plans, p.Real) (changes : List Change)
    (hs : h.pool.Sound) :
    ∃ r new h', hook plans changes h = (r, changes ++ new, h') ∧ Applies new h h' := by
  obtain ⟨hidle, hquiet⟩ := Hook.ofPlans_idle (h := h) hreal
  unfold hook
  rcases hplans : Hook.ofPlans plans h with ⟨ks, h₁⟩
  rw [hplans] at hidle hquiet
  have hb : (Batch.ofHooks ks).Idle := ⟨rfl, hidle⟩
  rcases hb.attach (hquiet.sound hs) with
    ⟨b, h', h₂, rs, m, heq, hplace, hintact, hw, hquiet'⟩ | ⟨e, b, h', heq, hidle', hintact⟩
  · simp only [heq, hplace.attached, if_true]
    exact ⟨_, _, _, rfl, .single (.hooks hplace) (hquiet.intact.trans hintact) hw hquiet'⟩
  · simp only [heq, hidle'.detached]
    refine ⟨_, [], _, by rw [List.append_nil]; rfl, .nil ?_⟩
    exact (hquiet.intact.trans hintact).trans hidle'.release.intact

end Program

/-- What a plain body records, in order, leads from the host as it was to the host as it is. -/
theorem Program.Plain.run {p : Program} (hp : p.Plain) (settings : List Setting)
    (changes : List Change) (s : Site) (hs : s.host.pool.Sound) :
    ∃ o new s', p.run settings changes s = (o, changes ++ new, s') ∧
      Applies new s.host s'.host := by
  induction p generalizing changes s with
  | done => exact ⟨_, [], s, by rw [Program.run, List.append_nil], .refl _⟩
  | fail e => exact ⟨_, [], s, by rw [Program.run, List.append_nil], .refl _⟩
  | abort message => exact ⟨_, [], s, by rw [Program.run, List.append_nil], .refl _⟩
  | resolve t next ih =>
      have hquiet := s.resolve_quiet t
      rcases hresolve : s.resolve t with ⟨r, s₁⟩
      rw [hresolve] at hquiet
      rw [Program.run, hresolve]
      cases r with
      | ok found =>
          obtain ⟨o, new, s', heq, ha⟩ := ih _ (hp _) changes s₁ (hquiet.sound hs)
          exact ⟨o, new, s', heq, ha.intact_left hquiet.intact⟩
      | error e =>
          obtain ⟨o, new, s', heq, ha⟩ := ih _ (hp _) changes s₁ (hquiet.sound hs)
          exact ⟨o, new, s', heq, ha.intact_left hquiet.intact⟩
  | transaction e next ih =>
      obtain ⟨o, new, h₁, htransact, ha⟩ := transact_plain hp.1 changes s.host
      rw [Program.run, htransact]
      cases o with
      | aborted message => exact ⟨_, new, _, rfl, ha⟩
      | done =>
          obtain ⟨o, new', s', heq, ha'⟩ := ih (.ok ()) (hp.2 _) (changes ++ new)
            { s with host := h₁ } (ha.sound hs)
          exact ⟨o, new ++ new', s', by rw [← List.append_assoc]; exact heq, ha.append ha'⟩
      | failed e =>
          obtain ⟨o, new', s', heq, ha'⟩ := ih (.error e) (hp.2 _) (changes ++ new)
            { s with host := h₁ } (ha.sound hs)
          exact ⟨o, new ++ new', s', by rw [← List.append_assoc]; exact heq, ha.append ha'⟩
  | hooks plans next ih =>
      obtain ⟨r, new, h₁, hhook, ha⟩ := hook_real hp.1 changes hs
      obtain ⟨o, new', s', heq, ha'⟩ := ih r (hp.2 _) (changes ++ new) { s with host := h₁ }
        (ha.sound hs)
      rw [Program.run, hhook]
      exact ⟨o, new ++ new', s', by rw [← List.append_assoc]; exact heq, ha.append ha'⟩
  | inspect next ih =>
      rw [Program.run]
      exact ih _ (hp _) changes s hs
  | report e next ih =>
      have hquiet : Quiet s.host (s.host.report e) := .of_eq rfl rfl rfl
      obtain ⟨o, new, s', heq, ha⟩ := ih hp changes { s with host := s.host.report e }
        (hquiet.sound hs)
      rw [Program.run]
      exact ⟨o, new, s', heq, ha.intact_left hquiet.intact⟩
  | poke => exact hp.elim

/-! ## Bodies that may do anything but hook in their own way -/

/-- No hook is scripted; edits may do what they like, and so may the host. -/
def Program.Real : Program → Prop
  | .done | .fail _ | .abort _ => True
  | .resolve _ next => ∀ r, (next r).Real
  | .transaction _ next => ∀ r, (next r).Real
  | .hooks plans next => (∀ p ∈ plans, p.Real) ∧ ∀ r, (next r).Real
  | .inspect next => ∀ c, (next c).Real
  | .report _ next => next.Real
  | .poke _ _ next => next.Real

theorem Transaction.pool_rollback (t : Transaction) (h : Host) :
    (t.rollback h).2.2.pool = h.pool := by
  by_cases hphase : t.phase = .rolledBack
  · rw [rollback_of_rolledBack hphase]
  · rcases rollback_cases hphase h with ⟨m, -, heq⟩ | ⟨-, e, heq⟩
    · rw [heq]
      rfl
    · rw [heq]

theorem Transaction.pool_release (t : Transaction) (h : Host) : (t.release h).pool = h.pool := by
  unfold release
  split
  · have hpool := t.pool_rollback h
    rcases heq : t.rollback h with ⟨_ | _, t', h'⟩
    · rwa [heq] at hpool
    · rwa [heq] at hpool
  · rfl

/-- An edit takes nothing from the pool. -/
theorem Edit.pool_run (e : Edit) (t : Transaction) (h : Host) : (e.run t h).2.2.pool = h.pool := by
  induction e generalizing t h with
  | done => rfl
  | fail => rfl
  | abort => rfl
  | write w next ih =>
      rcases t.perform_cases w h with ⟨e, heq⟩ | ⟨r, -, -, -, message, heq⟩
      · rw [run, heq]
        exact ih _ t h
      · rw [run, heq]
        exact ih _ _ _
  | commit next ih => exact ih _ _
  | rollback next ih =>
      have hpool := t.pool_rollback h
      rcases heq : t.rollback h with ⟨r, t', h'⟩
      rw [heq] at hpool
      rw [run, heq]
      exact (ih r t' h').trans hpool
  | poke a bs next ih => exact ih t (h.poke a bs)

namespace Program

/-- A transaction that is recorded is committed, whatever its edit did with it. -/
theorem transact_inForce (e : Edit) (changes : List Change) (h : Host) :
    ∃ o new h', transact e changes h = (o, changes ++ new, h') ∧ (∀ c ∈ new, ∃ rs, c.InForce rs) ∧
      h'.pool = h.pool := by
  have hpool := e.pool_run .empty h
  unfold transact
  rcases hrun : e.run .empty h with ⟨o, t, h₁⟩
  rw [hrun] at hpool
  cases o with
  | done =>
      refine ⟨.done, [.writes t.commit], h₁, rfl, ?_, hpool⟩
      exact List.forall_mem_singleton.mpr ⟨_, .writes rfl⟩
  | failed error =>
      have hback := t.pool_rollback h₁
      rcases heq : t.rollback h₁ with ⟨_ | _, t', h₂⟩
      · rw [heq] at hback
        refine ⟨.failed error, [], _, by simp only [heq, List.append_nil]; rfl,
          fun _ hc ↦ (nomatch hc), ?_⟩
        exact (t'.pool_release _).trans (hback.trans hpool)
      · rw [heq] at hback
        refine ⟨.failed error, [], _, by simp only [heq, List.append_nil]; rfl,
          fun _ hc ↦ (nomatch hc), ?_⟩
        exact (t'.pool_release _).trans (hback.trans hpool)
  | aborted message =>
      refine ⟨.aborted message, [], _, by rw [List.append_nil], fun _ hc ↦ (nomatch hc), ?_⟩
      exact (t.pool_release h₁).trans hpool

/-- Whatever a body without scripted hooks records is in force. -/
theorem Real.run {p : Program} (hp : p.Real) (settings : List Setting) (changes : List Change)
    (s : Site) (hs : s.host.pool.Sound) :
    ∃ o new s', p.run settings changes s = (o, changes ++ new, s') ∧
      (∀ c ∈ new, ∃ rs, c.InForce rs) ∧ s'.host.pool.Sound := by
  have hnone : ∀ c ∈ ([] : List Change), ∃ rs, c.InForce rs := fun _ hc ↦ nomatch hc
  have happend {cs ds : List Change} (hcs : ∀ c ∈ cs, ∃ rs, c.InForce rs)
      (hds : ∀ c ∈ ds, ∃ rs, c.InForce rs) : ∀ c ∈ cs ++ ds, ∃ rs, c.InForce rs :=
    fun c hc ↦ (List.mem_append.mp hc).elim (hcs c) (hds c)
  induction p generalizing changes s with
  | done => exact ⟨_, [], s, by rw [Program.run, List.append_nil], hnone, hs⟩
  | fail e => exact ⟨_, [], s, by rw [Program.run, List.append_nil], hnone, hs⟩
  | abort message => exact ⟨_, [], s, by rw [Program.run, List.append_nil], hnone, hs⟩
  | resolve t next ih =>
      have hquiet := s.resolve_quiet t
      rcases hresolve : s.resolve t with ⟨e | found, s₁⟩
      · rw [hresolve] at hquiet
        rw [Program.run, hresolve]
        exact ih _ (hp _) changes s₁ (hquiet.sound hs)
      · rw [hresolve] at hquiet
        rw [Program.run, hresolve]
        exact ih _ (hp _) changes s₁ (hquiet.sound hs)
  | transaction e next ih =>
      obtain ⟨o, new, h₁, htransact, hforce, hpool⟩ := transact_inForce e changes s.host
      have hs₁ : h₁.pool.Sound := hpool ▸ hs
      rw [Program.run, htransact]
      cases o with
      | aborted message => exact ⟨_, new, _, rfl, hforce, hs₁⟩
      | done =>
          obtain ⟨o, new', s', heq, hforce', hs'⟩ := ih (.ok ()) (hp _) (changes ++ new)
            { s with host := h₁ } hs₁
          exact ⟨o, new ++ new', s', by rw [← List.append_assoc]; exact heq,
            happend hforce hforce', hs'⟩
      | failed e =>
          obtain ⟨o, new', s', heq, hforce', hs'⟩ := ih (.error e) (hp _) (changes ++ new)
            { s with host := h₁ } hs₁
          exact ⟨o, new ++ new', s', by rw [← List.append_assoc]; exact heq,
            happend hforce hforce', hs'⟩
  | hooks plans next ih =>
      obtain ⟨r, new, h₁, hhook, ha⟩ := hook_real hp.1 changes hs
      obtain ⟨o, new', s', heq, hforce', hs'⟩ := ih r (hp.2 _) (changes ++ new)
        { s with host := h₁ } (ha.sound hs)
      rw [Program.run, hhook]
      exact ⟨o, new ++ new', s', by rw [← List.append_assoc]; exact heq,
        happend ha.inForce hforce', hs'⟩
  | inspect next ih => exact ih _ (hp _) changes s hs
  | report e next ih => exact ih hp changes { s with host := s.host.report e } hs
  | poke a bs next ih => exact ih hp changes { s with host := s.host.poke a bs } hs

end Program

end HotPatch
