import HotPatch.Hook.Basic

/-!
# Calls in turn

What comes of making one call to each of some hooks, whatever came of the calls before. A call that
fails leaves its hook attached or detached as it was; one that succeeds settles which it is.
-/

namespace HotPatch

/-- Whether a hook is attached after a call, given what came of it and whether it was before. -/
def HookCall.leaves : HookCall → Except HookError Unit → Bool → Bool
  | .attach, .ok (), _ => true
  | .detach, .ok (), _ => false
  | _, _, attached => attached

namespace HookCall

variable {r : Except HookError Unit} {attached : Bool}

theorem leaves_prepare : prepare.leaves r attached = attached := rfl

theorem leaves_attach_eq_true : attach.leaves r attached = true ↔ r = .ok () ∨ attached = true := by
  cases r <;> simp [leaves]

theorem leaves_detach_eq_true :
    detach.leaves r attached = true ↔ (∃ e, r = .error e) ∧ attached = true := by
  cases r <;> simp [leaves]

end HookCall

namespace Hook

variable {c : HookCall} {k : Hook} {ks : List Hook} {h : Host} {e : HookError}

/-! ## One call -/

theorem call_slot (c : HookCall) (k : SlotHook) (h : Host) :
    (call c (.slot k) h).2.1.name = k.name ∧
      (call c (.slot k) h).2.1.isAttached = c.leaves (call c (.slot k) h).1 k.stage.isActive := by
  obtain ⟨name, slot, detour, passage, stage⟩ := k
  cases c with
  | prepare =>
      cases stage with
      | fresh =>
          simp only [call, SlotHook.prepare]
          split <;> exact ⟨rfl, rfl⟩
      | ready r => exact ⟨rfl, rfl⟩
      | active r => exact ⟨rfl, rfl⟩
  | attach =>
      cases stage with
      | fresh => exact ⟨rfl, rfl⟩
      | ready r =>
          simp only [call, SlotHook.attach]
          split <;> exact ⟨rfl, rfl⟩
      | active r => exact ⟨rfl, rfl⟩
  | detach =>
      cases stage with
      | fresh => exact ⟨rfl, rfl⟩
      | ready r => exact ⟨rfl, rfl⟩
      | active r =>
          simp only [call, SlotHook.detach]
          split <;> exact ⟨rfl, rfl⟩

theorem call_inline (c : HookCall) (k : InlineHook) (h : Host) :
    (call c (.inline k) h).2.1.name = k.name ∧
      (call c (.inline k) h).2.1.isAttached =
        c.leaves (call c (.inline k) h).1 k.stage.isActive := by
  obtain ⟨name, target, detour, passage, stage⟩ := k
  cases c with
  | prepare =>
      cases stage with
      | fresh =>
          simp only [call, InlineHook.prepare]
          split
          · exact ⟨rfl, rfl⟩
          · split
            · exact ⟨rfl, rfl⟩
            · split <;> exact ⟨rfl, rfl⟩
      | ready work => exact ⟨rfl, rfl⟩
      | active work => exact ⟨rfl, rfl⟩
  | attach =>
      cases stage with
      | fresh => exact ⟨rfl, rfl⟩
      | ready work =>
          simp only [call, InlineHook.attach]
          split <;> exact ⟨rfl, rfl⟩
      | active work => exact ⟨rfl, rfl⟩
  | detach =>
      cases stage with
      | fresh => exact ⟨rfl, rfl⟩
      | ready work => exact ⟨rfl, rfl⟩
      | active work =>
          simp only [call, InlineHook.detach]
          split <;> exact ⟨rfl, rfl⟩

theorem call_scripted (c : HookCall) (k : ScriptedHook) (h : Host) :
    (call c (.scripted k) h).2.1.name = k.name ∧
      (call c (.scripted k) h).2.1.isAttached =
        c.leaves (call c (.scripted k) h).1 k.attached := by
  simp only [call, ScriptedHook.call]
  split
  · cases c <;> exact ⟨rfl, rfl⟩
  · cases c <;> exact ⟨rfl, rfl⟩

@[simp] theorem name_call (c : HookCall) (k : Hook) (h : Host) :
    (k.call c h).2.1.name = k.name := by
  cases k with
  | slot k => exact (call_slot c k h).1
  | inline k => exact (call_inline c k h).1
  | scripted k => exact (call_scripted c k h).1

theorem isAttached_call (c : HookCall) (k : Hook) (h : Host) :
    (k.call c h).2.1.isAttached = c.leaves (k.call c h).1 k.isAttached := by
  cases k with
  | slot k => exact (call_slot c k h).2
  | inline k => exact (call_inline c k h).2
  | scripted k => exact (call_scripted c k h).2

theorem isAttached_of_error (he : (k.call c h).1 = .error e) :
    (k.call c h).2.1.isAttached = k.isAttached := by
  rw [isAttached_call, he]
  cases c <;> rfl

/-! ## A round of calls -/

structure Round where
  results : List (Except HookError Unit)
  hooks : List Hook
  host : Host

def Round.Succeeds (r : Round) : Prop := ∀ result ∈ r.results, result = .ok ()

/-- Makes a call to each hook in turn, whatever comes of it. -/
def callEach (c : HookCall) : List Hook → Host → Round
  | [], h => ⟨[], [], h⟩
  | k :: ks, h =>
    let called := k.call c h
    let rest := callEach c ks called.2.2
    ⟨called.1 :: rest.results, called.2.1 :: rest.hooks, rest.host⟩

theorem callEach_cons {r : Except HookError Unit} {k' : Hook} {h' : Host}
    (hcall : k.call c h = (r, k', h')) (ks : List Hook) :
    callEach c (k :: ks) h = ⟨r :: (callEach c ks h').results, k' :: (callEach c ks h').hooks,
      (callEach c ks h').host⟩ := by
  simp only [callEach, hcall]

theorem results_callEach_append (c : HookCall) (ks ls : List Hook) (h : Host) :
    (callEach c (ks ++ ls) h).results =
      (callEach c ks h).results ++ (callEach c ls (callEach c ks h).host).results := by
  induction ks generalizing h with
  | nil => rfl
  | cons k ks ih => exact congrArg (_ :: ·) (ih _)

theorem succeeds_nil : (callEach c [] h).Succeeds := by
  intro result hr
  cases hr

theorem succeeds_cons :
    (callEach c (k :: ks) h).Succeeds ↔
      (k.call c h).1 = .ok () ∧ (callEach c ks (k.call c h).2.2).Succeeds :=
  List.forall_mem_cons

@[simp] theorem length_results (c : HookCall) (ks : List Hook) (h : Host) :
    (callEach c ks h).results.length = ks.length := by
  induction ks generalizing h with
  | nil => rfl
  | cons k ks ih => exact congrArg (· + 1) (ih _)

@[simp] theorem length_hooks (c : HookCall) (ks : List Hook) (h : Host) :
    (callEach c ks h).hooks.length = ks.length := by
  induction ks generalizing h with
  | nil => rfl
  | cons k ks ih => exact congrArg (· + 1) (ih _)

@[simp] theorem names_callEach (c : HookCall) (ks : List Hook) (h : Host) :
    (callEach c ks h).hooks.map name = ks.map name := by
  induction ks generalizing h with
  | nil => rfl
  | cons k ks ih =>
      rw [callEach, List.map_cons, List.map_cons, name_call, ih]

def attachments (ks : List Hook) : List Bool := ks.map isAttached

theorem exists_of_mem_callEach {k' : Hook} (hk : k' ∈ (callEach c ks h).hooks) :
    ∃ k ∈ ks, ∃ r ∈ (callEach c ks h).results, k'.isAttached = c.leaves r k.isAttached := by
  induction ks generalizing h with
  | nil => cases hk
  | cons k ks ih =>
      rcases List.mem_cons.mp hk with rfl | hk
      · exact ⟨k, List.mem_cons_self, _, List.mem_cons_self, isAttached_call c k h⟩
      · obtain ⟨q, hq, r, hr, heq⟩ := ih hk
        exact ⟨q, List.mem_cons_of_mem k hq, r, List.mem_cons_of_mem _ hr, heq⟩

def AllAttached (ks : List Hook) : Prop := ∀ k ∈ ks, k.isAttached = true

def NoneAttached (ks : List Hook) : Prop := ∀ k ∈ ks, k.isAttached = false

theorem NoneAttached.prepare (hks : NoneAttached ks) :
    NoneAttached (callEach .prepare ks h).hooks := by
  intro k' hk'
  obtain ⟨k, hk, r, -, heq⟩ := exists_of_mem_callEach hk'
  rw [heq, HookCall.leaves_prepare, hks k hk]

theorem allAttached_of_succeeds (hs : (callEach .attach ks h).Succeeds) :
    AllAttached (callEach .attach ks h).hooks := by
  intro k' hk'
  obtain ⟨k, -, r, hr, heq⟩ := exists_of_mem_callEach hk'
  rw [heq, hs r hr]
  rfl

theorem noneAttached_of_succeeds (hs : (callEach .detach ks h).Succeeds) :
    NoneAttached (callEach .detach ks h).hooks := by
  intro k' hk'
  obtain ⟨k, -, r, hr, heq⟩ := exists_of_mem_callEach hk'
  rw [heq, hs r hr]
  rfl

/-- When the hooks of a round are all attached, or all detached, the answers tell which are then. -/
theorem attachments_callEach {attached : Bool} (hks : ∀ k ∈ ks, k.isAttached = attached) :
    attachments (callEach c ks h).hooks =
      (callEach c ks h).results.map (c.leaves · attached) := by
  induction ks generalizing h with
  | nil => rfl
  | cons k ks ih =>
      obtain ⟨hk, hrest⟩ := List.forall_mem_cons.mp hks
      rw [callEach, attachments, List.map_cons, List.map_cons, isAttached_call, hk]
      exact congrArg (_ :: ·) (ih hrest)

/-! ## A round that breaks off -/

def callNext (c : HookCall) (before : List Hook) (k : Hook) (h : Host) :
    Except HookError Unit × Hook × Host :=
  k.call c (callEach c before h).host

theorem callNext_cons {r : Except HookError Unit} {k' q : Hook} {h' : Host}
    (hcall : k.call c h = (r, k', h')) (before : List Hook) :
    callNext c (k :: before) q h = callNext c before q h' := by
  rw [callNext, callEach_cons hcall, callNext]

structure Breaks (c : HookCall) (before : List Hook) (k : Hook) (h : Host) (e : HookError) :
    Prop where
  succeeds : (callEach c before h).Succeeds
  fails : (callNext c before k h).1 = .error e

theorem breaks_cons {before : List Hook} {q : Hook} :
    Breaks c (k :: before) q h e ↔
      (k.call c h).1 = .ok () ∧ Breaks c before q (k.call c h).2.2 e := by
  have hnext : callNext c (k :: before) q h = callNext c before q (k.call c h).2.2 :=
    callNext_cons rfl before
  constructor
  · intro hb
    obtain ⟨hk, hs⟩ := succeeds_cons.mp hb.succeeds
    exact ⟨hk, hs, hnext ▸ hb.fails⟩
  · rintro ⟨hk, hb⟩
    exact ⟨succeeds_cons.mpr ⟨hk, hb.succeeds⟩, hnext ▸ hb.fails⟩

/-- There is one place where a round breaks off. -/
theorem Breaks.unique {before before' after after' : List Hook} {q : Hook} {e' : HookError}
    (hb : Breaks c before k h e) (hb' : Breaks c before' q h e')
    (heq : before ++ k :: after = before' ++ q :: after') :
    before = before' ∧ k = q ∧ after = after' := by
  induction before generalizing before' h with
  | nil =>
      cases before' with
      | nil =>
          obtain ⟨rfl, rfl⟩ := List.cons.inj heq
          exact ⟨rfl, rfl, rfl⟩
      | cons p before' =>
          obtain ⟨rfl, -⟩ := List.cons.inj heq
          cases hb.fails.symm.trans (breaks_cons.mp hb').1
  | cons p before ih =>
      cases before' with
      | nil =>
          obtain ⟨rfl, -⟩ := List.cons.inj heq
          cases hb'.fails.symm.trans (breaks_cons.mp hb).1
      | cons p' before' =>
          obtain ⟨rfl, hrest⟩ := List.cons.inj heq
          obtain ⟨rfl, rfl, rfl⟩ := ih (breaks_cons.mp hb).2 (breaks_cons.mp hb').2 hrest
          exact ⟨rfl, rfl, rfl⟩

theorem Breaks.not_succeeds {before after : List Hook} (hb : Breaks c before k h e) :
    ¬ (callEach c (before ++ k :: after) h).Succeeds := by
  intro hs
  have hfailed : Except.error e ∈ (callEach c (before ++ k :: after) h).results := by
    rw [results_callEach_append, ← hb.fails]
    exact List.mem_append_right _ List.mem_cons_self
  cases hs _ hfailed

/-- The calls that take those to `before` back after the one to `k`, the latest first. -/
def takeBack (c undo : HookCall) (before : List Hook) (k : Hook) (h : Host) : Round :=
  callEach undo (callEach c before h).hooks.reverse (callNext c before k h).2.2

def Round.FailsFirst (r : Round) (i : Nat) (e : HookError) : Prop :=
  r.results[i]? = some (.error e) ∧ ∀ j < i, r.results[j]? = some (.ok ())

end Hook

end HotPatch
