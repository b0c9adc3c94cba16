import HotPatch.Proofs.Ledger.Change
import HotPatch.Proofs.Patch.Program

/-!
# The ledger of a body

While a body runs, anything may happen: hooks of a user's own making, hosts that write in between,
edits that commit their transactions and roll them back as they like. All that the engine writes is
either recorded or undone, but for what an edit leaves of its transaction.
-/

namespace HotPatch

open Host

variable {x : Address} {v : UInt8} {own : Bool} {total d : Int} {h : Host}

/-! ## Edits -/

namespace Transaction

/-- The writes by which the transaction is rolled back, if it can be and has not been yet. -/
def undoing (t : Transaction) (h : Host) : List UndoRecord :=
  if t.phase = .rolledBack then []
  else
    match t.rollback h with
    | (.ok (), _, _) => t.records.reverse.map UndoRecord.inverse
    | (.error _, _, _) => []

theorem debts_undoing {t : Transaction} (hphase : t.phase ≠ .rolledBack)
    (hback : ∃ m, Unwinds h.memory t.records m) :
    debts x v (t.undoing h) = -debts x v t.records := by
  obtain ⟨m, hu⟩ := hback
  rw [undoing, if_neg hphase, rollback_eq_ok hphase hu]
  simp [debts_inverse]

theorem undoing_eq_nil {t : Transaction} (hphase : t.phase ≠ .rolledBack)
    (hnot : ¬ ∃ m, Unwinds h.memory t.records m) : t.undoing h = [] := by
  rcases rollback_cases hphase h with ⟨m, hu, -⟩ | ⟨-, e, heq⟩
  · exact absurd ⟨m, hu⟩ hnot
  · rw [undoing, if_neg hphase, heq]

theorem rollback_balanced (t : Transaction) (hb : InBalance x v own total d h) :
    InBalance x v own total (d + debts x v (t.undoing h)) (t.rollback h).2.2 := by
  unfold undoing
  split
  · rename_i hphase
    rw [rollback_of_rolledBack hphase]
    exact hb.congr (by simp)
  · rename_i hphase
    rcases rollback_cases hphase h with ⟨m, hu, heq⟩ | ⟨-, e, heq⟩
    · rw [heq]
      exact hb.rewrites hu (.refl _)
    · rw [heq]
      exact hb.congr (by simp)

theorem debts_standing_rollback (t : Transaction) (h : Host) :
    debts x v t.standing + debts x v (t.undoing h) = debts x v (t.rollback h).2.1.standing := by
  by_cases hphase : t.phase = .rolledBack
  · simp [rollback_of_rolledBack hphase, undoing, hphase]
  · rcases rollback_cases hphase h with ⟨m, hu, heq⟩ | ⟨hnot, e, heq⟩
    · rw [t.standing_of_not_rolledBack hphase, debts_undoing hphase ⟨m, hu⟩, heq,
        standing_of_rolledBack _ rfl, debts_nil]
      omega
    · rw [undoing_eq_nil hphase hnot, heq, debts_nil, Int.add_zero]

/-- An open transaction is rolled back at its end. -/
theorem release_balanced (t : Transaction) (hb : InBalance x v own total d h) :
    InBalance x v own total (d + debts x v (if t.phase = .active then t.undoing h else []))
      (t.release h) := by
  by_cases hactive : t.phase = .active
  · by_cases hempty : t.records = []
    · have hopen : t.phase ≠ .rolledBack := by simp [hactive]
      have hu : Unwinds h.memory t.records h.memory := by
        rw [hempty]
        exact .nil _
      rw [if_pos hactive, undoing, if_neg hopen, rollback_eq_ok hopen hu, hempty,
        release_of_active hactive hu]
      exact hb.congr (by simp)
    · have hback := t.rollback_balanced hb
      rw [if_pos hactive, release, if_pos ⟨hactive, hempty⟩]
      rcases heq : t.rollback h with ⟨_ | _, t', h'⟩
      · rw [heq] at hback
        exact hback.quiet (quiet_note ..)
      · rw [heq] at hback
        exact hback
  · rw [if_neg hactive, release_of_not_active hactive]
    exact hb.congr (by simp)

/-- There is nothing left to do for a transaction that was rolled back or could not be. -/
theorem release_of_rollback {t t' : Transaction} {r : Except MemoryError Unit} {h' h₂ : Host}
    (heq : t.rollback h = (r, t', h')) (hquiet : Quiet h' h₂) : Quiet h₂ (t'.release h₂) := by
  by_cases hphase : t.phase = .rolledBack
  · rw [rollback_of_rolledBack hphase] at heq
    cases heq
    rw [release_of_not_active (by simp [hphase])]
    exact .refl _
  · rcases rollback_cases hphase h with ⟨m, -, hok⟩ | ⟨hnot, e, herror⟩
    · cases hok.symm.trans heq
      rw [release_of_not_active (by simp)]
      exact .refl _
    · cases herror.symm.trans heq
      rw [← hquiet.memory] at hnot
      rcases rollback_cases hphase h₂ with ⟨m, hu, -⟩ | ⟨-, e, herror'⟩
      · exact absurd ⟨m, hu⟩ hnot
      · unfold release
        split
        · rw [herror']
          exact quiet_note ..
        · exact .refl _

end Transaction

namespace Edit

/-- What the engine writes while the edit runs, in order; undoing a record is to write its
inverse. -/
def journal : Edit → Transaction → Host → List UndoRecord
  | .done, _, _ | .fail _, _, _ | .abort _, _, _ => []
  | .write w next, t, h =>
    match t.perform w h with
    | (r, t', h) => t'.records.drop t.records.length ++ (next r).journal t' h
  | .commit next, t, h => next.journal t.commit h
  | .rollback next, t, h =>
    match t.rollback h with
    | (r, t', h') => t.undoing h ++ (next r).journal t' h'
  | .poke a bs next, t, h => next.journal t (h.poke a bs)

def closing (e : Edit) (h : Host) : List UndoRecord :=
  match e.run .empty h with
  | (.done, _, _) => []
  | (.failed _, t, h) => t.undoing h
  | (.aborted _, t, h) => if t.phase = .active then t.undoing h else []

def recorded (e : Edit) (h : Host) : List UndoRecord :=
  match e.run .empty h with
  | (.done, t, _) => t.records
  | (.failed _, _, _) | (.aborted _, _, _) => []

/-- What the engine wrote for the edit, against what it recorded. -/
def stray (e : Edit) (h : Host) : List UndoRecord :=
  e.journal .empty h ++ e.closing h ++ (e.recorded h).map UndoRecord.inverse

def strays (es : List (Edit × Host)) : List UndoRecord := es.flatMap fun q ↦ q.1.stray q.2

@[simp] theorem strays_nil : strays [] = [] := rfl

@[simp] theorem strays_cons (e : Edit) (h : Host) (es : List (Edit × Host)) :
    strays ((e, h) :: es) = e.stray h ++ strays es :=
  List.flatMap_cons

/-- While an edit runs, memory is out of balance by just what its journal lists. -/
theorem run_balanced (e : Edit) (t : Transaction) (hb : InBalance x v true total d h) :
    InBalance x v true total (d + debts x v (e.journal t h)) (e.run t h).2.2 := by
  induction e generalizing t d h with
  | done => exact hb.congr (by simp [journal])
  | fail => exact hb.congr (by simp [journal])
  | abort => exact hb.congr (by simp [journal])
  | write w next ih =>
      rcases t.perform_cases w h with ⟨e, heq⟩ | ⟨r, hfit, -, -, message, heq⟩
      · simp only [journal, run, heq, List.drop_length, List.nil_append]
        exact ih _ t hb
      · simp only [journal, run, heq, List.drop_left, debts_append]
        refine (ih _ _ ?_).congr (Int.add_assoc ..)
        exact hb.rewrites (.single hfit) (quiet_note ..)
  | commit next ih => exact ih _ hb
  | rollback next ih =>
      have hback := t.rollback_balanced hb
      rcases heq : t.rollback h with ⟨r, t', h'⟩
      rw [heq] at hback
      simp only [journal, run, heq, debts_append]
      exact (ih r t' hback).congr (Int.add_assoc ..)
  | poke a bs next ih => exact ih t (hb.poke a bs)

/-- Once its transaction is rolled back, the edit does not write, commit or succeed any more. -/
def Orderly : Edit → Transaction → Host → Prop
  | .done, t, _ => t.phase ≠ .rolledBack
  | .fail _, _, _ | .abort _, _, _ => True
  | .write w next, t, h =>
    t.phase ≠ .rolledBack ∧
      match t.perform w h with
      | (r, t, h) => (next r).Orderly t h
  | .commit next, t, h => t.phase ≠ .rolledBack ∧ next.Orderly t.commit h
  | .rollback next, t, h =>
    match t.rollback h with
    | (r, t, h) => (next r).Orderly t h
  | .poke a bs next, t, h => next.Orderly t (h.poke a bs)

/-- When the edit is over, what it wrote is recorded or undone: it succeeds, or its transaction is
rolled back or can be and is. -/
def Kept (e : Edit) (h : Host) : Prop :=
  match e.run .empty h with
  | (.done, _, _) => True
  | (.failed _, t, h') => t.phase = .rolledBack ∨ ∃ m, Unwinds h'.memory t.records m
  | (.aborted _, t, h') =>
    t.phase = .rolledBack ∨ t.phase = .active ∧ ∃ m, Unwinds h'.memory t.records m

/-- Step by step, what an orderly edit wrote is what its transaction has in memory. -/
theorem Orderly.debts_journal {e : Edit} {t : Transaction} (he : e.Orderly t h) :
    debts x v t.standing + debts x v (e.journal t h) = debts x v (e.run t h).2.1.standing ∧
      ((e.run t h).1 = .done → (e.run t h).2.1.phase ≠ .rolledBack) := by
  induction e generalizing t h with
  | done => exact ⟨by simp [journal, run], fun _ ↦ he⟩
  | fail =>
      refine ⟨by simp [journal, run], fun hdone ↦ ?_⟩
      cases hdone
  | abort =>
      refine ⟨by simp [journal, run], fun hdone ↦ ?_⟩
      cases hdone
  | write w next ih =>
      rcases t.perform_cases w h with ⟨e, heq⟩ | ⟨r, -, -, -, message, heq⟩
      · simp only [Orderly, heq] at he
        simp only [journal, run, heq, List.drop_length, List.nil_append]
        exact ih _ he.2
      · simp only [Orderly, heq] at he
        obtain ⟨hphase, hnext⟩ := he
        obtain ⟨hdebts, hdone⟩ := ih _ hnext
        simp only [journal, run, heq, List.drop_left]
        refine ⟨?_, hdone⟩
        have hstanding : ({ t with records := t.records ++ [r] } : Transaction).standing =
            t.records ++ [r] := Transaction.standing_of_not_rolledBack _ hphase
        rw [hstanding, debts_append] at hdebts
        rw [t.standing_of_not_rolledBack hphase, debts_append, ← Int.add_assoc]
        exact hdebts
  | commit next ih =>
      obtain ⟨hphase, hnext⟩ := he
      obtain ⟨hdebts, hdone⟩ := ih hnext
      refine ⟨?_, hdone⟩
      rw [t.standing_of_not_rolledBack hphase]
      exact hdebts
  | rollback next ih =>
      have hback := t.debts_standing_rollback (x := x) (v := v) h
      rcases heq : t.rollback h with ⟨r, t', h'⟩
      rw [heq] at hback
      simp only [Orderly, heq] at he
      obtain ⟨hdebts, hdone⟩ := ih r he
      simp only [journal, run, heq]
      refine ⟨?_, hdone⟩
      rw [debts_append, ← Int.add_assoc, hback]
      exact hdebts
  | poke a bs next ih => exact ih he

/-- An edit that comes to nothing but one write has no transaction that could get in its way. -/
theorem orderly_single (w : Write) (h : Host) : (write w (Edit.after .done)).Orderly .empty h := by
  rcases Transaction.empty.perform_cases w h with ⟨e, heq⟩ | ⟨r, -, -, -, message, heq⟩
  · simp only [Orderly, heq]
    exact ⟨nofun, trivial⟩
  · simp only [Orderly, heq]
    exact ⟨nofun, nofun⟩

theorem kept_single (w : Write) (h : Host) : (write w (Edit.after .done)).Kept h := by
  rcases Transaction.empty.perform_cases w h with ⟨e, heq⟩ | ⟨r, -, -, -, message, heq⟩
  · simp only [Kept, run, heq]
    exact .inr ⟨h.memory, .nil h.memory⟩
  · simp only [Kept, run, heq]
    trivial

/-- What an orderly edit leaves astray is nothing or all that it wrote. -/
theorem Orderly.debts_stray {e : Edit} (he : e.Orderly .empty h) :
    (e.Kept h → debts x v (e.stray h) = 0) ∧
      (¬ e.Kept h → debts x v (e.stray h) = debts x v (e.run .empty h).2.1.records) := by
  obtain ⟨hdebts, hdone⟩ := he.debts_journal (x := x) (v := v)
  have hempty : debts x v Transaction.empty.standing = 0 := rfl
  rw [hempty, Int.zero_add] at hdebts
  unfold stray closing recorded Kept
  rw [debts_append, debts_append, hdebts]
  generalize e.run .empty h = ended at hdone
  obtain ⟨o, t, h₁⟩ := ended
  have hundone := Transaction.debts_undoing (x := x) (v := v) (t := t) (h := h₁)
  have hstuck := Transaction.undoing_eq_nil (t := t) (h := h₁)
  cases o with
  | done =>
      refine ⟨fun _ ↦ ?_, fun hnot ↦ absurd trivial hnot⟩
      simp only [t.standing_of_not_rolledBack (hdone rfl), debts_inverse, debts_nil]
      omega
  | failed error =>
      by_cases hphase : t.phase = .rolledBack
      · refine ⟨fun _ ↦ ?_, fun hnot ↦ absurd (.inl hphase) hnot⟩
        simp [t.standing_of_rolledBack hphase, Transaction.undoing, hphase]
      · rw [t.standing_of_not_rolledBack hphase]
        refine ⟨fun hback ↦ ?_, fun hnot ↦ ?_⟩
        · simp only [hundone hphase (hback.resolve_left hphase), List.map_nil, debts_nil]
          omega
        · simp [hstuck hphase fun hback ↦ hnot (.inr hback)]
  | aborted message =>
      by_cases hphase : t.phase = .rolledBack
      · refine ⟨fun _ ↦ ?_, fun hnot ↦ absurd (.inl hphase) hnot⟩
        simp [t.standing_of_rolledBack hphase, hphase]
      · rw [t.standing_of_not_rolledBack hphase]
        refine ⟨fun hback ↦ ?_, fun hnot ↦ ?_⟩
        · obtain ⟨hactive, hback⟩ := hback.resolve_left hphase
          simp only [if_pos hactive, hundone hphase hback, List.map_nil, debts_nil]
          omega
        · by_cases hactive : t.phase = .active
          · simp [hactive, hstuck hphase fun hback ↦ hnot (.inr ⟨hactive, hback⟩)]
          · simp [hactive]

theorem debts_strays {es : List (Edit × Host)}
    (hes : ∀ q ∈ es, q.1.Orderly .empty q.2 ∧ q.1.Kept q.2) : debts x v (strays es) = 0 := by
  induction es with
  | nil => rfl
  | cons q es ih =>
      obtain ⟨⟨horderly, hkept⟩, hrest⟩ := List.forall_mem_cons.mp hes
      rw [strays_cons, debts_append, horderly.debts_stray.1 hkept, ih hrest]
      rfl

end Edit

namespace Program

/-- What an edit wrote is owed by a new change, or it went astray. -/
theorem transact_balanced (e : Edit) (changes : List Change) (hb : InBalance x v true total d h) :
    ∃ o new h', transact e changes h = (o, changes ++ new, h') ∧ (∀ c ∈ new, c.Sound true) ∧
      InBalance x v true total (d + Change.owed x v new + debts x v (e.stray h)) h' := by
  have hb₁ := e.run_balanced .empty hb
  unfold transact Edit.stray Edit.closing Edit.recorded
  rcases hrun : e.run .empty h with ⟨o, t, h₁⟩
  rw [hrun] at hb₁
  cases o with
  | done =>
      have hphase : t.commit.phase = .committed := rfl
      have hcommitted : t.commit.standing = t.records :=
        t.commit.standing_of_not_rolledBack (by simp [hphase])
      refine ⟨.done, [.writes t.commit], h₁, rfl, List.forall_mem_singleton.mpr ?_, ?_⟩
      · simp [Change.Sound, hphase]
      refine hb₁.congr ?_
      simp [Change.standing, hcommitted, debts_inverse]
      omega
  | failed error =>
      have hb₂ := t.rollback_balanced hb₁
      have hstray : InBalance x v true total (d + Change.owed x v [] +
          debts x v (e.journal .empty h ++ t.undoing h₁ ++ [])) (t.rollback h₁).2.2 :=
        hb₂.congr (by simp [Int.add_assoc])
      rcases heq : t.rollback h₁ with ⟨r | u, t', h₂⟩
      · rw [heq] at hstray
        have hnoted :
            Quiet h₂ (h₂.note .error ("Failed to roll back transaction: " ++ r.message)) :=
          quiet_note ..
        refine ⟨.failed error, [], _, by simp only [heq, List.append_nil]; rfl,
          List.forall_mem_nil _, ?_⟩
        exact (hstray.quiet hnoted).quiet (Transaction.release_of_rollback heq hnoted)
      · rw [heq] at hstray
        refine ⟨.failed error, [], _, by simp only [heq, List.append_nil]; rfl,
          List.forall_mem_nil _, ?_⟩
        exact hstray.quiet (Transaction.release_of_rollback heq (.refl h₂))
  | aborted message =>
      refine ⟨.aborted message, [], t.release h₁, by simp, List.forall_mem_nil _, ?_⟩
      refine (t.release_balanced hb₁).congr ?_
      simp [Int.add_assoc]

theorem hook_balanced (plans : List HookPlan) (changes : List Change)
    (hb : InBalance x v true total d h) :
    ∃ r new h', hook plans changes h = (r, changes ++ new, h') ∧ (∀ c ∈ new, c.Sound true) ∧
      InBalance x v true total (d + Change.owed x v new) h' := by
  obtain ⟨hnone, hquiet⟩ := Hook.ofPlans_standing plans h
  unfold hook
  rcases hplans : Hook.ofPlans plans h with ⟨ks, h₁⟩
  rw [hplans] at hnone hquiet
  have hsound : (Batch.ofHooks ks).Sound true := ⟨fun _ _ ↦ .inl rfl, fun _ ↦ hnone⟩
  have hb₁ : InBalance x v true total (d + debts x v (Batch.ofHooks ks).standing) h₁ :=
    (hb.quiet hquiet).congr (by simp [Batch.standing, Batch.ofHooks, hnone])
  obtain ⟨r, b, h₂, heq, hb, hb₂⟩ := hsound.attach hb₁
  simp only [heq]
  cases hattached : b.attached with
  | true =>
      refine ⟨_, [.hooks b], h₂, rfl, List.forall_mem_singleton.mpr hb, ?_⟩
      exact hb₂.congr (by simp [Change.standing])
  | false =>
      refine ⟨_, [], b.release h₂, by rw [List.append_nil]; rfl, List.forall_mem_nil _, ?_⟩
      refine (hb₂.quiet (hb.release hattached h₂)).congr ?_
      rw [hb.detached hattached]
      rfl

def edits (settings : List Setting) : Program → List Change → Site → List (Edit × Host)
  | .done, _, _ | .fail _, _, _ | .abort _, _, _ => []
  | .resolve t next, changes, s =>
    match s.resolve t with
    | (.ok found, s) => (next (.ok found.address)).edits settings changes s
    | (.error e, s) => (next (.error e)).edits settings changes s
  | .transaction e next, changes, s =>
    (e, s.host) ::
      match transact e changes s.host with
      | (.done, changes, h) => (next (.ok ())).edits settings changes { s with host := h }
      | (.failed e, changes, h) => (next (.error e)).edits settings changes { s with host := h }
      | (.aborted _, _, _) => []
  | .hooks plans next, changes, s =>
    match hook plans changes s.host with
    | (r, changes, h) => (next r).edits settings changes { s with host := h }
  | .inspect next, changes, s =>
    (next ⟨s.resolver.version, s.resolver.image, settings, changes.length⟩).edits settings changes s
  | .report e next, changes, s =>
    next.edits settings changes { s with host := s.host.report e }
  | .poke a bs next, changes, s =>
    next.edits settings changes { s with host := s.host.poke a bs }

/-- Whatever a body does, memory lacks what was recorded and what the edits leave astray. -/
theorem run_balanced (p : Program) (settings : List Setting) (changes : List Change) (s : Site)
    (hb : InBalance x v true total d s.host) :
    ∃ o new s', p.run settings changes s = (o, changes ++ new, s') ∧ (∀ c ∈ new, c.Sound true) ∧
      InBalance x v true total
        (d + Change.owed x v new + debts x v (Edit.strays (p.edits settings changes s)))
        s'.host := by
  have hstop {d : Int} (s : Site) (hb : InBalance x v true total d s.host) :
      InBalance x v true total (d + Change.owed x v [] + debts x v []) s.host :=
    hb.congr (by simp)
  have happend {cs ds : List Change} (hcs : ∀ c ∈ cs, c.Sound true) (hds : ∀ c ∈ ds, c.Sound true) :
      ∀ c ∈ cs ++ ds, c.Sound true :=
    fun c hc ↦ (List.mem_append.mp hc).elim (hcs c) (hds c)
  induction p generalizing d changes s with
  | done => exact ⟨_, [], s, by rw [Program.run, List.append_nil], nofun, hstop s hb⟩
  | fail e => exact ⟨_, [], s, by rw [Program.run, List.append_nil], nofun, hstop s hb⟩
  | abort message => exact ⟨_, [], s, by rw [Program.run, List.append_nil], nofun, hstop s hb⟩
  | resolve t next ih =>
      have hquiet := s.resolve_quiet t
      rcases hresolve : s.resolve t with ⟨r, s₁⟩
      rw [hresolve] at hquiet
      cases r with
      | ok found =>
          simp only [Program.run, edits, hresolve]
          exact ih _ changes s₁ (hb.quiet hquiet)
      | error e =>
          simp only [Program.run, edits, hresolve]
          exact ih _ changes s₁ (hb.quiet hquiet)
  | transaction e next ih =>
      obtain ⟨o, new, h₁, htransact, hsound, hb₁⟩ := transact_balanced e changes hb
      have hgo (r : Except PatchError Unit) : ∃ o all s',
          (next r).run settings (changes ++ new) { s with host := h₁ } =
            (o, changes ++ all, s') ∧ (∀ c ∈ all, c.Sound true) ∧
          InBalance x v true total (d + Change.owed x v all +
            debts x v (e.stray s.host ++ Edit.strays ((next r).edits settings (changes ++ new)
              { s with host := h₁ }))) s'.host := by
        obtain ⟨o, new', s', heq, hsound', hb₂⟩ := ih r (changes ++ new) { s with host := h₁ } hb₁
        rw [List.append_assoc] at heq
        refine ⟨o, new ++ new', s', heq, happend hsound hsound', hb₂.congr ?_⟩
        simp only [Change.owed_append, debts_append]
        omega
      simp only [Program.run, edits, htransact, Edit.strays_cons]
      cases o with
      | done => exact hgo (.ok ())
      | failed error => exact hgo (.error error)
      | aborted message => exact ⟨_, new, _, rfl, hsound, hb₁.congr (by simp)⟩
  | hooks plans next ih =>
      obtain ⟨r, new, h₁, hhook, hsound, hb₁⟩ := hook_balanced plans changes hb
      obtain ⟨o, new', s', heq, hsound', hb₂⟩ := ih r (changes ++ new) { s with host := h₁ } hb₁
      simp only [Program.run, edits, hhook]
      refine ⟨o, new ++ new', s', by rw [← List.append_assoc]; exact heq,
        happend hsound hsound', hb₂.congr ?_⟩
      rw [Change.owed_append]
      omega
  | inspect next ih => exact ih _ changes s hb
  | report e next ih =>
      exact ih changes { s with host := s.host.report e } (hb.quiet (.of_eq rfl rfl rfl))
  | poke a bs next ih => exact ih changes { s with host := s.host.poke a bs } (hb.poke a bs)

end Program

end HotPatch
