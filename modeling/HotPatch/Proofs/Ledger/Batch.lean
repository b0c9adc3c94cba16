import HotPatch.Proofs.Hook.Batch
import HotPatch.Proofs.Ledger.Basic

/-!
# The ledger of hooks

What a hook owes is read off the hook: the record by which it is in place. So the books of a batch
close whichever calls fail and whatever a hook of a user's own making does in between, and a batch
that counts as detached owes nothing.
-/

namespace HotPatch

open Host

variable {x : Address} {v : UInt8} {own : Bool} {total d : Int} {h : Host}

namespace Hook

variable {k : Hook} {r : UndoRecord}

def standing (k : Hook) : List UndoRecord := if k.isAttached then k.record?.toList else []

/-- A hook of a user's own making may write for the host, which then has to be counted. -/
def Booked (own : Bool) (k : Hook) : Prop := own = true ∨ k.Real

theorem Idle.standing (hk : k.Idle) : k.standing = [] := by
  rw [Hook.standing, if_neg (by simp [hk.detached])]

theorem InPlace.standing (hk : k.InPlace r) : k.standing = [r] := by
  rw [Hook.standing, if_pos hk.attached, hk.record, Option.toList_some]

theorem standing_of_inPlace {ks : List Hook} {rs : List UndoRecord}
    (hks : List.Forall₂ InPlace ks rs) :
    (∀ k ∈ ks, k.Real) ∧ ks.flatMap Hook.standing = rs := by
  induction hks with
  | nil => exact ⟨nofun, rfl⟩
  | cons hk _ ih =>
      refine ⟨List.forall_mem_cons.mpr ⟨hk.real, ih.1⟩, ?_⟩
      rw [List.flatMap_cons, hk.standing, ih.2, List.singleton_append]

structure Called (own : Bool) (c : HookCall) (k : Hook) (r : Except HookError Unit) (k' : Hook) :
    Prop where
  booked : k'.Booked own
  detached : c = .detach → r = .ok () → k'.standing = []
  idle : k.standing = [] → c ≠ .attach ∨ r ≠ .ok () → k'.standing = []

theorem Idle.call_balanced (hk : k.Idle) (hb : InBalance x v own total d h) (c : HookCall) :
    ∃ r k' h', k.call c h = (r, k', h') ∧ Called own c k r k' ∧
      InBalance x v own total (d + debts x v k'.standing) h' := by
  have hstay {k' : Hook} {h' : Host} (hk' : k'.Idle) (hb' : InBalance x v own total d h') (c r) :
      Called own c k r k' ∧ InBalance x v own total (d + debts x v k'.standing) h' := by
    refine ⟨⟨.inr hk'.real, fun _ _ ↦ hk'.standing, fun _ _ ↦ hk'.standing⟩, hb'.congr ?_⟩
    rw [hk'.standing, debts_nil, Int.add_zero]
  cases c with
  | prepare =>
      obtain ⟨hidle, hintact⟩ := hk.prepare hb.sound
      exact ⟨_, _, _, rfl, hstay hidle (hb.intact hintact) _ _⟩
  | detach => exact ⟨_, k, h, hk.detach h, hstay hk hb _ _⟩
  | attach =>
      by_cases hfit : ∃ r, k.record? = some r ∧ r.Fits h.memory
      · obtain ⟨r, hrecord, hfit⟩ := hfit
        obtain ⟨k', h', heq, hplace, hcalm⟩ := Hook.Ready.attach ⟨hk, hrecord⟩ hfit
        refine ⟨_, k', h', heq, ⟨.inr hplace.real, fun hc ↦ (nomatch hc), fun _ hnot ↦ ?_⟩, ?_⟩
        · simp at hnot
        · rw [hplace.standing]
          exact hb.rewrites (.single hfit) hcalm.toQuiet
      · obtain ⟨e, k', h', heq, hidle, -, hquiet⟩ := hk.attach_of_not_fits
          fun r hr hf ↦ hfit ⟨r, hr, hf⟩
        exact ⟨_, k', h', heq, hstay hidle (hb.quiet hquiet) _ _⟩

theorem InPlace.call_balanced (hk : k.InPlace r)
    (hb : InBalance x v own total (d + r.debt x v) h) (c : HookCall) :
    ∃ a k' h', k.call c h = (a, k', h') ∧ Called own c k a k' ∧
      InBalance x v own total (d + debts x v k'.standing) h' := by
  have hstays : InBalance x v own total (d + debts x v k.standing) h :=
    hb.congr (by simp [hk.standing])
  by_cases hc : c = .detach
  · subst hc
    by_cases hfit : r.inverse.Fits h.memory
    · obtain ⟨k', h', heq, hready, hcalm⟩ := hk.detach hfit
      have hnone : k'.standing = [] := hready.toIdle.standing
      refine ⟨_, k', h', heq, ⟨.inr hready.real, fun _ _ ↦ hnone, fun _ _ ↦ hnone⟩, ?_⟩
      refine (hb.rewrites (.single hfit) hcalm.toQuiet).congr ?_
      rw [hnone, debts_cons, debt_inverse, debts_nil]
      omega
    · obtain ⟨e, heq⟩ := hk.detach_of_not_fits hfit
      exact ⟨_, k, h, heq, ⟨.inr hk.real, fun _ hr ↦ (nomatch hr), fun hnone _ ↦ hnone⟩, hstays⟩
  · refine ⟨_, k, h, hk.call_ne_detach hc h, ⟨.inr hk.real, fun hc' ↦ absurd hc' hc, ?_⟩, hstays⟩
    exact fun hnone _ ↦ hnone

theorem scripted_call_balanced (k : ScriptedHook) (hb : InBalance x v true total d h)
    (c : HookCall) : InBalance x v true total d (k.call c h).2.2 := by
  have hreported {h₁ : Host} (hpoked : InBalance x v true total d h₁) (e : Event) :
      InBalance x v true total d (h₁.report e) := hpoked.quiet (.of_eq rfl rfl rfl)
  rcases hpoke : (k.schedule c).poke with _ | ⟨a, bs⟩
  · simp only [ScriptedHook.call, hpoke]
    split
    · exact hreported hb _
    · cases c <;> exact hreported hb _
  · have hpoked := hb.poke a bs
    simp only [ScriptedHook.call, hpoke]
    split
    · exact hreported hpoked _
    · cases c <;> exact hreported hpoked _

/-- Whichever call a hook receives, it owes afterwards what it has put into memory. -/
theorem call_balanced (hk : k.Booked own)
    (hb : InBalance x v own total (d + debts x v k.standing) h) (c : HookCall) :
    ∃ r k' h', k.call c h = (r, k', h') ∧ Called own c k r k' ∧
      InBalance x v own total (d + debts x v k'.standing) h' := by
  by_cases hreal : k.Real
  · rcases hreal.idle_or_inPlace with hidle | ⟨r, hplace⟩
    · exact hidle.call_balanced (hb.congr (by simp [hidle.standing])) c
    · exact hplace.call_balanced (hb.congr (by simp [hplace.standing])) c
  · have hown : own = true := hk.resolve_right hreal
    subst hown
    cases k with
    | slot k => exact absurd trivial hreal
    | inline k => exact absurd trivial hreal
    | scripted k =>
        have hnone (k : ScriptedHook) : (Hook.scripted k).standing = [] := by
          simp [standing, record?]
        refine ⟨_, _, _, rfl, ⟨.inl rfl, fun _ _ ↦ hnone _, fun _ _ ↦ hnone _⟩, ?_⟩
        have hb' : InBalance x v true total d h := hb.congr (by simp [hnone])
        rw [hnone, debts_nil, Int.add_zero]
        exact scripted_call_balanced k hb' c

theorem release_quiet_of_standing (hk : k.standing = []) (h : Host) : Quiet h (k.release h) := by
  by_cases hreal : k.Real
  · rcases hreal.idle_or_inPlace with hidle | ⟨r, hplace⟩
    · exact hidle.release
    · rw [hplace.standing] at hk
      cases hk
  · cases k with
    | slot k => exact absurd trivial hreal
    | inline k => exact absurd trivial hreal
    | scripted k => exact .refl h

theorem releaseAll_quiet_of_standing {ks : List Hook} (hks : ks.flatMap standing = []) (h : Host) :
    Quiet h (releaseAll ks h) := by
  induction ks generalizing h with
  | nil => exact .refl h
  | cons k ks ih =>
      obtain ⟨hk, hrest⟩ := List.append_eq_nil_iff.mp hks
      exact (release_quiet_of_standing hk h).trans (ih hrest _)

/-- A new hook is not in place, or keeps track of that itself. -/
theorem ofPlans_standing (plans : List HookPlan) (h : Host) :
    (ofPlans plans h).1.flatMap standing = [] ∧ Quiet h (ofPlans plans h).2 := by
  induction plans generalizing h with
  | nil => exact ⟨rfl, .refl h⟩
  | cons p plans ih =>
      cases p with
      | slot name pointer detour passage => exact ih h
      | inline name target detour passage =>
          obtain ⟨hnone, hquiet⟩ := ih (h.setPassage passage target)
          have hpassage : Quiet h (h.setPassage passage target) := .of_eq rfl rfl rfl
          exact ⟨hnone, hpassage.trans hquiet⟩
      | scripted k =>
          obtain ⟨hnone, hquiet⟩ := ih h
          refine ⟨?_, hquiet⟩
          rw [ofPlans, ofPlan, List.flatMap_cons, hnone]
          simp [standing, record?]

end Hook

def Numbered.Booked (own : Bool) (k : Numbered) : Prop := k.2.Booked own

namespace Sweep

variable {done rest : List Numbered}

def standing (ks : List Numbered) : List UndoRecord := ks.flatMap fun k ↦ k.2.standing

@[simp] theorem standing_nil : standing [] = [] := rfl

@[simp] theorem standing_cons (index : Nat) (k : Hook) (ks : List Numbered) :
    standing ((index, k) :: ks) = k.standing ++ standing ks := List.flatMap_cons

@[simp] theorem standing_append (ks ks' : List Numbered) :
    standing (ks ++ ks') = standing ks ++ standing ks' := List.flatMap_append

theorem standing_reverse_perm (ks : List Numbered) : (standing ks.reverse).Perm (standing ks) :=
  ks.reverse_perm.flatMap_right _

/-- Taking hooks back settles what their records owe; what cannot be taken back stays owed. -/
theorem unwind_balanced (undo : HookCall) (hdone : ∀ k ∈ done, Numbered.Booked own k)
    (hb : InBalance x v own total (d + debts x v (standing done)) h) :
    ∃ done' stuck h', unwind undo done h = (done', stuck, h') ∧
      (∀ k ∈ done', Numbered.Booked own k) ∧
      InBalance x v own total (d + debts x v (standing done')) h' ∧
      (undo = .detach → stuck = none → standing done' = []) := by
  induction done generalizing d h with
  | nil => exact ⟨[], none, h, rfl, hdone, hb, fun _ _ ↦ rfl⟩
  | cons p done ih =>
      obtain ⟨index, k⟩ := p
      obtain ⟨hk, hrest⟩ := List.forall_mem_cons.mp hdone
      have hframe : InBalance x v own total
          (d + debts x v (standing done) + debts x v k.standing) h :=
        hb.congr (by rw [standing_cons, debts_append]; omega)
      obtain ⟨r, k', h₁, heq, hcalled, hb₁⟩ := Hook.call_balanced hk hframe undo
      have hframe' : InBalance x v own total
          (d + debts x v k'.standing + debts x v (standing done)) h₁ := hb₁.congr (by omega)
      obtain ⟨done', stuck, h₂, heq', hdone', hb₂, hnone⟩ := ih hrest hframe'
      have hbooked : ∀ q ∈ (index, k') :: done', Numbered.Booked own q :=
        List.forall_mem_cons.mpr ⟨hcalled.booked, hdone'⟩
      have hbalance : InBalance x v own total
          (d + debts x v (standing ((index, k') :: done'))) h₂ :=
        hb₂.congr (by rw [standing_cons, debts_append]; omega)
      cases r with
      | ok u =>
          refine ⟨(index, k') :: done', stuck, h₂, by simp only [unwind, heq, heq'], hbooked,
            hbalance, fun hundo hstuck ↦ ?_⟩
          rw [standing_cons, hcalled.detached hundo rfl, hnone hundo hstuck]
          rfl
      | error e =>
          refine ⟨(index, k') :: done', some ⟨index, k'.name, e⟩, h₂,
            by simp only [unwind, heq, heq'],
            hbooked, hbalance, ?_⟩
          intro _ hstuck
          cases hstuck

/-- A sweep keeps the balance wherever it turns back. No record stands after detaching that
succeeds, nor after attaching that fails and is taken back. -/
theorem run_balanced (call undo : HookCall) (hdone : ∀ k ∈ done, Numbered.Booked own k)
    (hrest : ∀ k ∈ rest, Numbered.Booked own k)
    (hb : InBalance x v own total
      (d + debts x v (standing done) + debts x v (standing rest)) h) :
    ∃ ks failure stuck h', run call undo done rest h = (⟨ks, failure, stuck⟩, h') ∧
      (∀ k ∈ ks, Numbered.Booked own k) ∧ InBalance x v own total (d + debts x v (standing ks)) h' ∧
      (call = .detach → failure = none → standing done = [] → standing ks = []) ∧
      (undo = .detach → failure ≠ none → stuck = none → standing rest = [] →
        standing ks = []) := by
  induction rest generalizing done h with
  | nil =>
      refine ⟨done.reverse, none, none, h, rfl, fun k hk ↦ hdone k (List.mem_reverse.mp hk),
        hb.congr ?_, fun _ _ hnone ↦ ?_, fun _ hsome ↦ absurd rfl hsome⟩
      · rw [debts_perm (standing_reverse_perm done)]
        simp
      · have hperm := standing_reverse_perm done
        rw [hnone] at hperm
        exact hperm.eq_nil
  | cons p rest ih =>
      obtain ⟨index, k⟩ := p
      obtain ⟨hk, hrest⟩ := List.forall_mem_cons.mp hrest
      have hframe : InBalance x v own total (d + debts x v (standing done) +
          debts x v (standing rest) + debts x v k.standing) h :=
        hb.congr (by rw [standing_cons, debts_append]; omega)
      obtain ⟨r, k', h₁, heq, hcalled, hb₁⟩ := Hook.call_balanced hk hframe call
      cases r with
      | ok u =>
          have hbooked : ∀ q ∈ (index, k') :: done, Numbered.Booked own q :=
            List.forall_mem_cons.mpr ⟨hcalled.booked, hdone⟩
          obtain ⟨ks, failure, stuck, h₂, heq', hks, hb₂, hdetached, hundone⟩ := ih hbooked hrest
            (hb₁.congr (by rw [standing_cons, debts_append]; omega))
          refine ⟨ks, failure, stuck, h₂, by simp only [run, heq, heq'], hks, hb₂, ?_, ?_⟩
          · intro hcall hfailure hnone
            refine hdetached hcall hfailure ?_
            rw [standing_cons, hcalled.detached hcall rfl, hnone]
            rfl
          · intro hundo hfailure hstuck hnone
            refine hundone hundo hfailure hstuck ?_
            exact (List.append_eq_nil_iff.mp hnone).2
      | error e =>
          have hframe' : InBalance x v own total (d + debts x v (standing rest) +
              debts x v k'.standing + debts x v (standing done)) h₁ := hb₁.congr (by omega)
          obtain ⟨done', stuck, h₂, heq', hdone', hb₂, hnone⟩ := unwind_balanced undo hdone hframe'
          refine ⟨done'.reverse ++ (index, k') :: rest, some ⟨index, k'.name, e⟩, stuck, h₂,
            by simp only [run, heq, heq'], fun q hq ↦ ?_, hb₂.congr ?_, ?_,
            fun hundo _ hstuck hrest' ↦ ?_⟩
          · rcases List.mem_append.mp hq with hq | hq
            · exact hdone' q (List.mem_reverse.mp hq)
            · rcases List.mem_cons.mp hq with rfl | hq
              · exact hcalled.booked
              · exact hrest q hq
          · rw [standing_append, standing_cons, debts_append, debts_append,
              debts_perm (standing_reverse_perm done')]
            omega
          · intro _ hfailure
            cases hfailure
          · obtain ⟨hfirst, hothers⟩ := List.append_eq_nil_iff.mp hrest'
            have hperm := standing_reverse_perm done'
            rw [hnone hundo hstuck] at hperm
            have hlast := hcalled.idle hfirst (.inr (by simp))
            rw [standing_append, standing_cons, hperm.eq_nil, hlast]
            exact hothers

end Sweep

namespace Batch

variable {b : Batch}

def standing (b : Batch) : List UndoRecord := b.hooks.flatMap Hook.standing

structure Sound (own : Bool) (b : Batch) : Prop where
  hooks : ∀ k ∈ b.hooks, k.Booked own
  detached : b.attached = false → b.standing = []

theorem standing_map (ks : List Numbered) :
    (ks.map (·.2)).flatMap Hook.standing = Sweep.standing ks := by
  rw [List.flatMap_map]
  rfl

theorem standing_number (index : Nat) (ks : List Hook) :
    Sweep.standing (number index ks) = ks.flatMap Hook.standing := by
  rw [← standing_map, map_number]

theorem number_booked {ks : List Hook} (hks : ∀ k ∈ ks, k.Booked own) (index : Nat) :
    ∀ k ∈ number index ks, Numbered.Booked own k := by
  intro k hk
  refine hks k.2 ?_
  rw [← map_number index ks]
  exact List.mem_map_of_mem hk

theorem prepareFrom_balanced {ks : List Hook} (hks : ∀ k ∈ ks, k.Booked own)
    (hb : InBalance x v own total (d + debts x v (ks.flatMap Hook.standing)) h) (index : Nat) :
    ∃ failure ks' h', prepareFrom index ks h = (failure, ks', h') ∧ (∀ k ∈ ks', k.Booked own) ∧
      InBalance x v own total (d + debts x v (ks'.flatMap Hook.standing)) h' ∧
      (ks.flatMap Hook.standing = [] → ks'.flatMap Hook.standing = []) := by
  induction ks generalizing d h index with
  | nil => exact ⟨none, [], h, rfl, hks, hb, id⟩
  | cons k ks ih =>
      obtain ⟨hk, hrest⟩ := List.forall_mem_cons.mp hks
      have hframe : InBalance x v own total
          (d + debts x v (ks.flatMap Hook.standing) + debts x v k.standing) h :=
        hb.congr (by rw [List.flatMap_cons, debts_append]; omega)
      obtain ⟨r, k', h₁, heq, hcalled, hb₁⟩ := Hook.call_balanced hk hframe .prepare
      have hidle : k.standing = [] → k'.standing = [] := fun hnone ↦ hcalled.idle hnone (.inl nofun)
      rw [prepareFrom, Hook.prepare, heq]
      cases r with
      | error e =>
          refine ⟨_, _, h₁, rfl, List.forall_mem_cons.mpr ⟨hcalled.booked, hrest⟩,
            hb₁.congr (by rw [List.flatMap_cons, debts_append]; omega), fun hnone ↦ ?_⟩
          obtain ⟨hfirst, hothers⟩ := List.append_eq_nil_iff.mp hnone
          exact List.append_eq_nil_iff.mpr ⟨hidle hfirst, hothers⟩
      | ok u =>
          have hframe' : InBalance x v own total
              (d + debts x v k'.standing + debts x v (ks.flatMap Hook.standing)) h₁ :=
            hb₁.congr (by omega)
          obtain ⟨failure, ks', h₂, heq', hks', hb₂, hnone'⟩ := ih hrest hframe' (index + 1)
          refine ⟨failure, k' :: ks', h₂, by simp only [heq'],
            List.forall_mem_cons.mpr ⟨hcalled.booked, hks'⟩,
            hb₂.congr (by rw [List.flatMap_cons, debts_append]; omega), fun hnone ↦ ?_⟩
          obtain ⟨hfirst, hothers⟩ := List.append_eq_nil_iff.mp hnone
          exact List.append_eq_nil_iff.mpr ⟨hidle hfirst, hnone' hothers⟩

theorem reportStuck_quiet (stuck : HookFailure) (cause : String) (h : Host) :
    Quiet h (reportStuck stuck cause h).2 :=
  (quiet_note ..).trans (reportMismatch_calm ..).toQuiet

/-- Memory lacks what the hooks of the batch have in place, whatever came of attaching it. -/
theorem Sound.attach (hs : b.Sound own)
    (hb : InBalance x v own total (d + debts x v b.standing) h) :
    ∃ r b' h', b.attach h = (r, b', h') ∧ b'.Sound own ∧
      InBalance x v own total (d + debts x v b'.standing) h' := by
  unfold Batch.attach
  split
  · exact ⟨_, b, h, rfl, hs, hb⟩
  · rename_i hdetached
    rw [Bool.not_eq_true] at hdetached
    have hnone := hs.detached hdetached
    obtain ⟨failure, ks, h₁, hprepare, hks, hb₁, hidle⟩ := prepareFrom_balanced hs.hooks hb 0
    rw [hprepare]
    cases failure with
    | some f => exact ⟨_, _, h₁, rfl, ⟨hks, fun _ ↦ hidle hnone⟩, hb₁⟩
    | none =>
        have hnil : ∀ k ∈ ([] : List Numbered), Numbered.Booked own k := nofun
        have hframe : InBalance x v own total (d + debts x v (Sweep.standing []) +
            debts x v (Sweep.standing (number 0 ks))) h₁ :=
          hb₁.congr (by rw [standing_number]; simp)
        obtain ⟨swept, failure, stuck, h₂, hrun, hswept, hb₂, -, hundone⟩ :=
          Sweep.run_balanced .attach .detach hnil (number_booked hks 0) hframe
        have hbooked : ∀ k ∈ swept.map (·.2), k.Booked own := List.forall_mem_map.mpr hswept
        have hb₃ : InBalance x v own total
            (d + debts x v ((swept.map (·.2)).flatMap Hook.standing)) h₂ := by
          rwa [standing_map]
        simp only [hrun]
        cases failure with
        | none => exact ⟨_, _, _, rfl, ⟨hbooked, fun hd ↦ (nomatch hd)⟩, hb₃.quiet (quiet_note ..)⟩
        | some f =>
            have hreported := hb₃.quiet (reportMismatch_calm f.source h₂).toQuiet
            cases stuck with
            | some s =>
                refine ⟨_, _, _, rfl, ⟨hbooked, fun hd ↦ (nomatch hd)⟩, ?_⟩
                exact (hreported.quiet (quiet_note ..)).quiet (reportStuck_quiet ..)
            | none =>
                refine ⟨_, _, _, rfl, ⟨hbooked, fun _ ↦ ?_⟩, hreported⟩
                rw [standing, standing_map]
                refine hundone rfl nofun rfl ?_
                rw [standing_number]
                exact hidle hnone

theorem Sound.detach (hs : b.Sound own)
    (hb : InBalance x v own total (d + debts x v b.standing) h) :
    ∃ r b' h', b.detach h = (r, b', h') ∧ b'.Sound own ∧
      InBalance x v own total (d + debts x v b'.standing) h' ∧
      (r = .ok () → b'.attached = false) := by
  unfold Batch.detach
  split
  · have hbooked : ∀ k ∈ (number 0 b.hooks).reverse, Numbered.Booked own k :=
      fun k hk ↦ number_booked hs.hooks 0 k (List.mem_reverse.mp hk)
    have hnil : ∀ k ∈ ([] : List Numbered), Numbered.Booked own k := nofun
    have hframe : InBalance x v own total (d + debts x v (Sweep.standing []) +
        debts x v (Sweep.standing (number 0 b.hooks).reverse)) h := by
      refine hb.congr ?_
      rw [debts_perm (Sweep.standing_reverse_perm _), standing_number]
      simp [standing]
    obtain ⟨swept, failure, stuck, h₁, hrun, hswept, hb₁, hdetached, -⟩ :=
      Sweep.run_balanced .detach .attach hnil hbooked hframe
    have hbooked' : ∀ k ∈ swept.reverse.map (·.2), k.Booked own :=
      List.forall_mem_map.mpr fun k hk ↦ hswept k (List.mem_reverse.mp hk)
    have hb₂ : InBalance x v own total
        (d + debts x v ((swept.reverse.map (·.2)).flatMap Hook.standing)) h₁ := by
      rwa [standing_map, debts_perm (Sweep.standing_reverse_perm _)]
    simp only [hrun]
    cases failure with
    | none =>
        refine ⟨_, _, _, rfl, ⟨hbooked', fun _ ↦ ?_⟩, hb₂.quiet (quiet_note ..), fun _ ↦ rfl⟩
        have hperm := Sweep.standing_reverse_perm swept
        rw [hdetached rfl rfl rfl] at hperm
        rw [standing, standing_map]
        exact hperm.eq_nil
    | some f =>
        have hreported := hb₂.quiet (reportMismatch_calm f.source h₁).toQuiet
        rename_i hattached
        cases stuck with
        | some s =>
            refine ⟨_, _, _, rfl, ⟨hbooked', fun hd ↦ ?_⟩, ?_, fun hr ↦ (nomatch hr)⟩
            · exact absurd (hattached.symm.trans hd) nofun
            · exact (hreported.quiet (quiet_note ..)).quiet (reportStuck_quiet ..)
        | none =>
            refine ⟨_, _, _, rfl, ⟨hbooked', fun hd ↦ ?_⟩, hreported, fun hr ↦ (nomatch hr)⟩
            exact absurd (hattached.symm.trans hd) nofun
  · rename_i hdetached
    rw [Bool.not_eq_true] at hdetached
    exact ⟨_, b, h, rfl, hs, hb, fun _ ↦ hdetached⟩

/-- The end of a batch that counts as detached changes nothing. -/
theorem Sound.release (hs : b.Sound own) (hdetached : b.attached = false) (h : Host) :
    Quiet h (b.release h) := by
  have hdetach : b.detach h = (.ok (), b, h) := by rw [Batch.detach, if_neg (by simp [hdetached])]
  rw [Batch.release, hdetach]
  exact Hook.releaseAll_quiet_of_standing (hs.detached hdetached) h

end Batch

end HotPatch
