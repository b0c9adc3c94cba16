import HotPatch.Proofs.Hook.Course

/-!
# Where attaching leaves a batch

Attaching ends with all hooks attached, with none, or stuck with those that could not be taken back,
and what is reported tells which: whichever calls fail, of whichever hooks.
-/

namespace HotPatch

open Hook List

def ScriptedHook.failing (name : String) (fails : HookCall → Nat → Bool) : ScriptedHook :=
  ⟨name, .notPrepared, fun c ↦ ⟨fails c, none, 0⟩, false⟩

namespace Hook

variable {c : HookCall} {ks before after : List Hook} {k : Hook} {h : Host} {e : HookError}
  {i j : Nat}

theorem NoneAttached.getElem?_ne (hks : NoneAttached ks) (i : Nat) :
    (attachments ks)[i]? ≠ some true := by
  intro hi
  rw [attachments, getElem?_map] at hi
  obtain ⟨k, hk, htrue⟩ := Option.map_eq_some_iff.mp hi
  have hfalse := hks k (mem_of_getElem? hk)
  rw [htrue] at hfalse
  cases hfalse

/-- A hook whose call failed joins the detached ones behind it. -/
theorem noneAttached_failed (hks : NoneAttached (before ++ k :: after))
    (hb : Breaks c before k h e) : NoneAttached ((callNext c before k h).2.1 :: after) := by
  obtain ⟨-, hback⟩ := forall_mem_append.mp hks
  obtain ⟨hk, hafter⟩ := forall_mem_cons.mp hback
  refine forall_mem_cons.mpr ⟨?_, hafter⟩
  exact (isAttached_of_error hb.fails).trans hk

/-- What the call answered that takes back the hook at a place in `before`. -/
def takenBack? (before : List Hook) (k : Hook) (h : Host) (i : Nat) :
    Option (Except HookError Unit) :=
  (takeBack .attach .detach before k h).results.reverse[i]?

theorem length_takeBack {call undo : HookCall} :
    (takeBack call undo before k h).results.length = before.length := by
  rw [takeBack, length_results, length_reverse, length_hooks]

theorem takenBack?_of_place (hplace : i + j + 1 = before.length) :
    takenBack? before k h i = (takeBack .attach .detach before k h).results[j]? := by
  rw [takenBack?, getElem?_reverse (by rw [length_takeBack]; omega), length_takeBack,
    show before.length - 1 - i = j by omega]

/-- After the hooks before a failure were taken back, those are attached that could not be. -/
theorem attachedAt_takenBack (hks : NoneAttached (before ++ k :: after))
    (hb : Breaks .attach before k h e) (i : Nat) :
    (attachments ((takeBack .attach .detach before k h).hooks.reverse ++
        (callNext .attach before k h).2.1 :: after))[i]? = some true ↔
      ∃ e, takenBack? before k h i = some (.error e) := by
  have hall : AllAttached (callEach .attach before h).hooks.reverse := by
    intro q hq
    exact allAttached_of_succeeds hb.succeeds q (mem_reverse.mp hq)
  have hundone : attachments (takeBack .attach .detach before k h).hooks.reverse =
      (takeBack .attach .detach before k h).results.reverse.map
        (HookCall.detach.leaves · true) := by
    rw [attachments, map_reverse, map_reverse]
    exact congrArg reverse (attachments_callEach hall)
  have hlast := noneAttached_failed hks hb
  rw [attachments, map_append, takenBack?]
  change (attachments _ ++ attachments _)[i]? = _ ↔ _
  rw [hundone]
  by_cases hi : i < (takeBack .attach .detach before k h).results.reverse.length
  · rw [getElem?_append_left (by rwa [length_map]), getElem?_map, Option.map_eq_some_iff]
    simp only [HookCall.leaves_detach_eq_true, and_true]
    constructor
    · rintro ⟨r, hr, e, rfl⟩
      exact ⟨e, hr⟩
    · rintro ⟨e, hr⟩
      exact ⟨_, hr, e, rfl⟩
  · have hle := Nat.le_of_not_lt hi
    rw [getElem?_append_right (by rwa [length_map]), getElem?_eq_none hle]
    constructor
    · intro hat
      exact absurd hat (hlast.getElem?_ne _)
    · rintro ⟨e, he⟩
      cases he

/-- The first hook to fail a call, when the hooks of a batch are called in turn. -/
def FailsAt (c : HookCall) (ks : List Hook) (h : Host) (i : Nat) (name : String) (e : HookError) :
    Prop :=
  ∃ before k after, ks = before ++ k :: after ∧ Breaks c before k h e ∧ i = before.length ∧
    name = k.name

end Hook

namespace Batch

variable {b : Batch} {h : Host}

structure On (b : Batch) : Prop where
  attached : b.attached = true
  hooks : AllAttached b.hooks

structure Off (b : Batch) : Prop where
  detached : b.attached = false
  hooks : NoneAttached b.hooks

def AttachedAt (b : Batch) (i : Nat) : Prop := (attachments b.hooks)[i]? = some true

instance (b : Batch) (i : Nat) : Decidable (b.AttachedAt i) :=
  inferInstanceAs (Decidable (_ = some true))

/-- The first hook that failed to be prepared, or to be attached once all were prepared. -/
def FirstFailure (b : Batch) (h : Host) (i : Nat) (name : String) (e : HookError) : Prop :=
  let prepared := callEach .prepare b.hooks h
  FailsAt .prepare b.hooks h i name e ∨
    prepared.Succeeds ∧ FailsAt .attach prepared.hooks prepared.host i name e

/-- The hook `cause` failed to be attached after all were prepared, and of those before it not all
could be taken back; the last of these is at `i`, and it failed with `e`. -/
structure Entangled (b : Batch) (h : Host) (i : Nat) (name cause : String) (e : HookError)
    (b' : Batch) : Prop where
  attached : b'.attached = true
  prepared : (callEach .prepare b.hooks h).Succeeds
  stuck : let prepared := callEach .prepare b.hooks h
    ∃ before k after e₀, prepared.hooks = before ++ k :: after ∧ cause = k.name ∧
      Breaks .attach before k prepared.host e₀ ∧
      takenBack? before k prepared.host i = some (.error e) ∧
      ∀ j, b'.AttachedAt j ↔ ∃ e, takenBack? before k prepared.host j = some (.error e)
  name : b.names[i]? = some name
  last : ∀ j, b'.AttachedAt j → j ≤ i
  released : ∀ g, (callEach .detach b'.hooks.reverse g).Succeeds →
    ∃ b'' g', b'.detach g = (.ok (), b'', g') ∧ b''.Off

/-- What a batch has come to after attaching it, by what was reported. -/
def AttachOutcome (b : Batch) (h : Host) : Except BatchError Unit → Batch → Prop
  | .ok (), b' => b'.On
  | .error (.attach i name e), b' => b'.Off ∧ b.FirstFailure h i name e
  | .error (.stuck i name cause e), b' => b.Entangled h i name cause e b'
  | .error (.detach ..), _ => False

/-! ## Attachments -/

/-- If every hook can be detached, the latest first, none is in place in the end. -/
theorem detach_of_succeeds (hb : b.attached = true)
    (hs : (callEach .detach b.hooks.reverse h).Succeeds) :
    ∃ b' h', b.detach h = (.ok (), b', h') ∧ b'.Off := by
  have hcourse := detach_course hb h
  rcases hdetach : b.detach h with ⟨r, b', h'⟩
  rw [hdetach] at hcourse
  cases hcourse with
  | detached hs =>
      refine ⟨_, _, rfl, rfl, fun k hk ↦ ?_⟩
      exact noneAttached_of_succeeds hs k (mem_reverse.mp hk)
  | restored hooks breaks =>
      rw [hooks, reverse_append, reverse_cons, append_assoc, singleton_append] at hs
      exact absurd hs breaks.not_succeeds
  | stuck hooks breaks =>
      rw [hooks, reverse_append, reverse_cons, append_assoc, singleton_append] at hs
      exact absurd hs breaks.not_succeeds

/-- Once all hooks are prepared, the way the sweep goes decides between the outcomes. -/
theorem AttachSweep.outcome (hb : b.Off) (hp : (callEach .prepare b.hooks h).Succeeds)
    {r : Except BatchError Unit} {b' : Batch}
    (hs : AttachSweep (callEach .prepare b.hooks h).hooks (callEach .prepare b.hooks h).host r b') :
    AttachOutcome b h r b' := by
  have hnone := hb.hooks.prepare (h := h)
  have hnames : b.names = (callEach .prepare b.hooks h).hooks.map Hook.name :=
    (names_callEach ..).symm
  cases hs with
  | attached hs => exact ⟨rfl, allAttached_of_succeeds hs⟩
  | @takenBack before k after e hooks breaks undone =>
      rw [hooks] at hnone
      refine ⟨⟨rfl, forall_mem_append.mpr ⟨?_, noneAttached_failed hnone breaks⟩⟩,
        .inr ⟨hp, before, k, after, hooks, breaks, rfl, rfl⟩⟩
      intro q hq
      exact noneAttached_of_succeeds undone q (mem_reverse.mp hq)
  | @stuck before k after e j i q e' hooks breaks hook place fails =>
      rw [hooks] at hnone
      have hattached (j : Nat) := attachedAt_takenBack hnone breaks j
      have hfails :
          takenBack? before k (callEach .prepare b.hooks h).host i = some (.error e') := by
        rw [takenBack?_of_place place]
        exact fails.1
      refine ⟨rfl, hp, ⟨before, k, after, e, hooks, rfl, breaks, hfails, hattached⟩, ?_, ?_, ?_⟩
      · rw [hnames, hooks, getElem?_map, getElem?_append_left (by omega), hook, Option.map_some]
      · intro l hl
        obtain ⟨e'', hl⟩ := (hattached l).mp hl
        by_contra hlt
        -- the hook was taken back before the first that could not be
        have hbound : l < before.length := by
          rw [← length_takeBack, ← length_reverse]
          exact (List.getElem?_eq_some_iff.mp hl).1
        have hplace : l + (before.length - 1 - l) + 1 = before.length := by omega
        rw [takenBack?_of_place hplace, fails.2 _ (by omega)] at hl
        cases hl
      · intro g hg
        exact detach_of_succeeds rfl hg

theorem attach_outcome (hb : b.Off) (h : Host) :
    AttachOutcome b h (b.attach h).1 (b.attach h).2.1 ∧ (b.attach h).2.1.names = b.names := by
  have hcourse := attach_course hb.detached h
  refine ⟨?_, hcourse.names⟩
  revert hcourse
  generalize (b.attach h).1 = r, (b.attach h).2.1 = b'
  intro hcourse
  cases hcourse with
  | prepared hp hs => exact hs.outcome hb hp
  | @unprepared before k after e hooks breaks =>
      have hnone := hb.hooks
      rw [hooks] at hnone
      obtain ⟨hbefore, -⟩ := forall_mem_append.mp hnone
      refine ⟨⟨rfl, forall_mem_append.mpr ⟨?_, noneAttached_failed hnone breaks⟩⟩,
        .inl ⟨before, k, after, hooks, breaks, rfl, rfl⟩⟩
      exact NoneAttached.prepare hbefore

/-- Of three hooks, the first cannot be detached and the last fails to be attached once. -/
def entangling : Batch :=
  .ofHooks [.scripted (.failing "a" fun c _ ↦ c = .detach),
    .scripted (.failing "b" fun _ _ ↦ false),
    .scripted (.failing "c" fun c n ↦ c = .attach ∧ n = 0)]

theorem attach_outcome_entangling :
    entangling.Off ∧
      (entangling.attach .onePage).1 = .error (.stuck 0 "a" "c" .notPrepared) ∧
      entangling.Entangled .onePage 0 "a" "c" .notPrepared (entangling.attach .onePage).2.1 := by
  have hoff : entangling.Off := by
    refine ⟨rfl, ?_⟩
    exact forall_mem_cons.mpr ⟨rfl, forall_mem_cons.mpr ⟨rfl, forall_mem_singleton.mpr rfl⟩⟩
  have hstuck : (entangling.attach .onePage).1 = .error (.stuck 0 "a" "c" .notPrepared) := rfl
  have houtcome := (attach_outcome hoff .onePage).1
  rw [hstuck] at houtcome
  exact ⟨hoff, hstuck, houtcome⟩

end Batch

end HotPatch
