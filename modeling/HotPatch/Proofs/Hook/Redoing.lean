import HotPatch.Proofs.Hook.Outcome

/-!
# What a failed detach puts back

When a hook cannot be detached, all hooks behind it are attached again, whether they were attached
or not. That makes a difference only to a batch that an earlier failure left in part.
-/

namespace HotPatch

open Hook List

namespace Hook

variable {ks : List Hook} {k : Hook} {h : Host} {e : HookError} {i : Nat}

theorem AllAttached.getElem?_eq (hks : AllAttached ks) (hi : i < ks.length) :
    (attachments ks)[i]? = some true := by
  rw [attachments, getElem?_map, getElem?_eq_getElem hi, Option.map_some,
    hks _ (getElem_mem hi)]

/-- What the call answered that attaches the hook at a place behind `k` again. -/
def putBack? (k : Hook) (after : List Hook) (h : Host) (i : Nat) :
    Option (Except HookError Unit) :=
  (takeBack .detach .attach after.reverse k h).results[i]?

/-- Of the hooks that are attached again, all were detached before. -/
theorem attachedAt_putBack {after : List Hook} (hb : Breaks .detach after.reverse k h e) (i : Nat) :
    (attachments (takeBack .detach .attach after.reverse k h).hooks)[i]? = some true ↔
      putBack? k after h i = some (.ok ()) := by
  have hnone : NoneAttached (callEach .detach after.reverse h).hooks.reverse := by
    intro q hq
    exact noneAttached_of_succeeds hb.succeeds q (mem_reverse.mp hq)
  rw [takeBack, attachments_callEach hnone, getElem?_map, Option.map_eq_some_iff, putBack?,
    takeBack]
  simp only [HookCall.leaves_attach_eq_true, Bool.false_eq_true, or_false]
  constructor
  · rintro ⟨r, hr, rfl⟩
    exact hr
  · intro hr
    exact ⟨_, hr, rfl⟩

end Hook

namespace Batch

variable {b b' : Batch} {h : Host} {i : Nat} {hooks : List Hook}
  {answers : List (Except BatchError Unit)}

/-- The batch comes from a new one by attaching and detaching, while the host does what it likes;
what was answered is listed, the latest first. -/
inductive Reached (hooks : List Hook) : List (Except BatchError Unit) → Batch → Prop
  | new : Reached hooks [] (.ofHooks hooks)
  | attach {answers : List (Except BatchError Unit)} {b : Batch} (hb : Reached hooks answers b)
      (h : Host) : Reached hooks ((b.attach h).1 :: answers) (b.attach h).2.1
  | detach {answers : List (Except BatchError Unit)} {b : Batch} (hb : Reached hooks answers b)
      (h : Host) : Reached hooks ((b.detach h).1 :: answers) (b.detach h).2.1

def Activates (b : Batch) (h : Host) (i : Nat) : Prop :=
  ¬ b.AttachedAt i ∧ (b.detach h).2.1.AttachedAt i

instance (b : Batch) (h : Host) (i : Nat) : Decidable (b.Activates h i) :=
  inferInstanceAs (Decidable (_ ∧ _))

/-- The hook lies behind the first that cannot be detached, and attaching it again succeeds. -/
def PutsBack (b : Batch) (h : Host) (i : Nat) : Prop :=
  b.attached = true ∧ ∃ before k after e j, b.hooks = before ++ k :: after ∧
    Breaks .detach after.reverse k h e ∧ i = before.length + 1 + j ∧
      putBack? k after h j = some (.ok ())

/-! ## One call -/

theorem PutsBack.not_succeeds (hp : b.PutsBack h i) :
    ¬ (callEach .detach b.hooks.reverse h).Succeeds := by
  obtain ⟨-, before, k, after, e, j, hooks, breaks, -⟩ := hp
  rw [hooks, reverse_append, reverse_cons, append_assoc, singleton_append]
  exact breaks.not_succeeds

/-- Only hooks behind the one that failed are put back: those whose call succeeds. -/
theorem putsBack_iff {before after : List Hook} {k : Hook} {e : HookError}
    (hflag : b.attached = true) (hooks : b.hooks = before ++ k :: after)
    (breaks : Breaks .detach after.reverse k h e) :
    b.PutsBack h i ↔ ∃ j, i = before.length + 1 + j ∧ putBack? k after h j = some (.ok ()) := by
  constructor
  · rintro ⟨-, before', k', after', e', j, hooks', breaks', hi, hput⟩
    have heq : after.reverse ++ k :: before.reverse = after'.reverse ++ k' :: before'.reverse := by
      have hrev := congrArg reverse (hooks.symm.trans hooks')
      rwa [reverse_append, reverse_append, reverse_cons, reverse_cons, append_assoc, append_assoc,
        singleton_append, singleton_append] at hrev
    obtain ⟨hafter, rfl, hbefore⟩ := breaks.unique breaks' heq
    obtain rfl := reverse_injective hafter
    obtain rfl := reverse_injective hbefore
    exact ⟨j, hi, hput⟩
  · rintro ⟨j, hi, hput⟩
    exact ⟨hflag, before, k, after, e, j, hooks, breaks, hi, hput⟩

/-- Up to the hook that failed nothing changes; behind it every hook is called again. -/
theorem attachedAt_iff_of_breaks {before after : List Hook} {k : Hook} {e : HookError}
    (hflag : b.attached = true) (hooks : b.hooks = before ++ k :: after)
    (breaks : Breaks .detach after.reverse k h e)
    (hooks' : b'.hooks = before ++ (callNext .detach after.reverse k h).2.1 ::
      (takeBack .detach .attach after.reverse k h).hooks) :
    b'.AttachedAt i ↔ i ≤ before.length ∧ b.AttachedAt i ∨ b.PutsBack h i := by
  rw [putsBack_iff hflag hooks breaks]
  have hsame : attachments b.hooks =
      attachments before ++ k.isAttached :: attachments after := by
    rw [hooks, attachments, map_append, map_cons]
    rfl
  have hfailed : attachments b'.hooks = attachments before ++ k.isAttached ::
      attachments (takeBack .detach .attach after.reverse k h).hooks := by
    have hk : (callNext .detach after.reverse k h).2.1.isAttached = k.isAttached :=
      isAttached_of_error breaks.fails
    rw [hooks', attachments, map_append, map_cons, hk]
    rfl
  have hlength : (attachments before).length = before.length := length_map _
  rw [AttachedAt, AttachedAt, hsame, hfailed]
  rcases Nat.lt_or_ge i before.length with hlt | hge
  · rw [getElem?_append_left (by omega), getElem?_append_left (by omega)]
    constructor
    · intro hat
      exact .inl ⟨by omega, hat⟩
    · rintro (⟨-, hat⟩ | ⟨j, hi, -⟩)
      · exact hat
      · omega
  · obtain ⟨d, rfl⟩ := Nat.exists_eq_add_of_le hge
    rw [getElem?_append_right (by omega), getElem?_append_right (by omega), hlength,
      Nat.add_sub_cancel_left]
    cases d with
    | zero =>
        constructor
        · intro hat
          exact .inl ⟨by omega, hat⟩
        · rintro (⟨-, hat⟩ | ⟨j, hi, -⟩)
          · exact hat
          · omega
    | succ j =>
        rw [getElem?_cons_succ, attachedAt_putBack breaks]
        constructor
        · intro hput
          exact .inr ⟨j, by omega, hput⟩
        · rintro (⟨hle, -⟩ | ⟨j', hi, hput⟩)
          · omega
          · obtain rfl : j' = j := by omega
            exact hput

/-- Detaching activates the hooks that it calls again to attach them, unless they were attached. -/
theorem activates_iff : b.Activates h i ↔ ¬ b.AttachedAt i ∧ b.PutsBack h i := by
  cases hflag : b.attached with
  | false =>
      have hdetach : b.detach h = (.ok (), b, h) := by rw [Batch.detach, if_neg (by simp [hflag])]
      rw [Activates, hdetach]
      constructor
      · rintro ⟨hnot, hat⟩
        exact absurd hat hnot
      · rintro ⟨-, hp, -⟩
        rw [hflag] at hp
        cases hp
  | true =>
      have hcourse := detach_course hflag h
      rw [Activates]
      generalize (b.detach h).1 = r, (b.detach h).2.1 = b' at hcourse
      have hbreaks {before after : List Hook} {k : Hook} {e : HookError}
          (hooks : b.hooks = before ++ k :: after) (breaks : Breaks .detach after.reverse k h e)
          (hooks' : b'.hooks = before ++ (callNext .detach after.reverse k h).2.1 ::
            (takeBack .detach .attach after.reverse k h).hooks) :
          ¬ b.AttachedAt i ∧ b'.AttachedAt i ↔ ¬ b.AttachedAt i ∧ b.PutsBack h i := by
        rw [attachedAt_iff_of_breaks hflag hooks breaks hooks']
        tauto
      cases hcourse with
      | detached hs =>
          have hnone : NoneAttached (callEach .detach b.hooks.reverse h).hooks.reverse := by
            intro q hq
            exact noneAttached_of_succeeds hs q (mem_reverse.mp hq)
          constructor
          · rintro ⟨-, hat⟩
            exact absurd hat (hnone.getElem?_ne i)
          · rintro ⟨-, hp⟩
            exact absurd hs hp.not_succeeds
      | restored hooks breaks => exact hbreaks hooks breaks rfl
      | stuck hooks breaks => exact hbreaks hooks breaks rfl

/-! ## Many calls -/

def Whole (b : Batch) : Prop := b.attached = true → AllAttached b.hooks

/-- Unless it gets stuck, attaching leaves no hook out of a batch that counts as attached. -/
theorem Whole.attach (hb : b.Whole) (h : Host)
    (hstuck : ∀ i name cause e, (b.attach h).1 ≠ .error (.stuck i name cause e)) :
    (b.attach h).2.1.Whole := by
  cases hflag : b.attached with
  | true =>
      rw [Batch.attach, if_pos hflag]
      exact hb
  | false =>
      have hcourse := attach_course hflag h
      revert hcourse hstuck
      generalize (b.attach h).1 = r, (b.attach h).2.1 = b'
      intro hstuck hcourse
      cases hcourse with
      | unprepared =>
          intro hattached
          cases hattached
      | prepared _ sweep =>
          cases sweep with
          | attached hs => exact fun _ ↦ allAttached_of_succeeds hs
          | takenBack =>
              intro hattached
              cases hattached
          | stuck => exact absurd rfl (hstuck _ _ _ _)

theorem Whole.detach (hb : b.Whole) (h : Host)
    (hstuck : ∀ i name cause e, (b.detach h).1 ≠ .error (.stuck i name cause e)) :
    (b.detach h).2.1.Whole := by
  cases hflag : b.attached with
  | false =>
      rw [Batch.detach, if_neg (by simp [hflag])]
      exact hb
  | true =>
      have hall := hb hflag
      have hcourse := detach_course hflag h
      revert hcourse hstuck
      generalize (b.detach h).1 = r, (b.detach h).2.1 = b'
      intro hstuck hcourse
      cases hcourse with
      | detached =>
          intro hattached
          cases hattached
      | @restored before k after e hooks breaks redone =>
          intro _
          rw [hooks] at hall
          obtain ⟨hbefore, hback⟩ := forall_mem_append.mp hall
          obtain ⟨hk, -⟩ := forall_mem_cons.mp hback
          refine forall_mem_append.mpr ⟨hbefore, forall_mem_cons.mpr ⟨?_, ?_⟩⟩
          · exact (isAttached_of_error breaks.fails).trans hk
          · exact allAttached_of_succeeds redone
      | stuck => exact absurd rfl (hstuck _ _ _ _)

/-- Only a batch that got stuck is in part attached. -/
theorem Reached.whole (hb : Reached hooks answers b)
    (hstuck : ∀ i name cause e, .error (.stuck i name cause e) ∉ answers) : b.Whole := by
  induction hb with
  | new => exact nofun
  | attach _ h ih =>
      refine (ih fun i name cause e hmem ↦ hstuck i name cause e (mem_cons_of_mem _ hmem)).attach h
        fun i name cause e heq ↦ hstuck i name cause e ?_
      exact mem_cons.mpr (.inl heq.symm)
  | detach _ h ih =>
      refine (ih fun i name cause e hmem ↦ hstuck i name cause e (mem_cons_of_mem _ hmem)).detach h
        fun i name cause e heq ↦ hstuck i name cause e ?_
      exact mem_cons.mpr (.inl heq.symm)

theorem Whole.not_activates (hb : b.Whole) : ¬ b.Activates h i := by
  intro hact
  obtain ⟨hnot, hflag, before, k, after, e, j, hooks, -, rfl, hput⟩ := activates_iff.mp hact
  have hj : j < after.length := by
    have hlt := (List.getElem?_eq_some_iff.mp hput).1
    rwa [length_takeBack, length_reverse] at hlt
  refine hnot ((hb hflag).getElem?_eq ?_)
  rw [hooks, length_append, length_cons]
  omega

/-- After any calls a detach activates the hooks that it puts back and that were not attached; and
there are none unless an earlier call got stuck. -/
theorem detach_activates_iff (hb : Reached hooks answers b) (h : Host) :
    (∀ i, b.Activates h i ↔ ¬ b.AttachedAt i ∧ b.PutsBack h i) ∧
      ((∀ i name cause e, .error (.stuck i name cause e) ∉ answers) → ∀ i, ¬ b.Activates h i) :=
  ⟨fun _ ↦ activates_iff, fun hstuck _ ↦ (hb.whole hstuck).not_activates⟩

theorem detach_activates_iff_entangling :
    Reached entangling.hooks [.error (.stuck 0 "a" "c" .notPrepared)]
        (entangling.attach .onePage).2.1 ∧
      ∀ i, (entangling.attach .onePage).2.1.Activates .onePage i ↔
        ¬ (entangling.attach .onePage).2.1.AttachedAt i ∧
          (entangling.attach .onePage).2.1.PutsBack .onePage i := by
  have hreached : Reached entangling.hooks [.error (.stuck 0 "a" "c" .notPrepared)]
      (entangling.attach .onePage).2.1 := .attach .new .onePage
  exact ⟨hreached, (detach_activates_iff hreached .onePage).1⟩

/-- The second hook was detached, and the third one failed when it was to be attached; as the first
cannot be detached, both are attached. -/
theorem detach_activates_detached :
    ∃ answers b, Reached entangling.hooks answers b ∧ b.Activates .onePage 1 ∧
      b.Activates .onePage 2 := by
  refine ⟨_, _, .attach .new .onePage, ?_, ?_⟩
  · decide +kernel
  · decide +kernel

end Batch

end HotPatch
