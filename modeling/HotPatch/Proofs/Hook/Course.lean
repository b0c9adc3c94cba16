import HotPatch.Proofs.Hook.Sweep

/-!
# The course of a batch

How attaching and detaching a batch can go, call by call: which calls were made, what they answered,
what the batch reports and what becomes of its hooks.
-/

namespace HotPatch

open Hook List

namespace Batch

variable {b : Batch} {ks : List Hook} {h : Host}

/-! ## Places -/

theorem place_of_reverse {α : Type} {l : List α} {i : Nat} {a : α} (ha : l.reverse[i]? = some a) :
    ∃ j, l[j]? = some a ∧ j + i + 1 = l.length := by
  have hi : i < l.length := by
    rw [← length_reverse]
    exact (List.getElem?_eq_some_iff.mp ha).1
  rw [getElem?_reverse hi] at ha
  exact ⟨_, ha, by omega⟩

theorem split_number {front back : List Numbered} {p : Numbered}
    (hsplit : number 0 ks = front ++ p :: back) :
    ks = front.map Prod.snd ++ p.2 :: back.map Prod.snd ∧ p.1 = front.length := by
  constructor
  · rw [← map_number 0 ks, hsplit, map_append, map_cons]
  · have hp : (number 0 ks)[front.length]? = some p := by
      rw [hsplit, getElem?_append_right (Nat.le_refl _), Nat.sub_self, getElem?_cons_zero]
    rw [(fst_of_number hp).1, Nat.zero_add]

/-! ## Preparing -/

/-- All hooks are prepared, or the first one that cannot be is reported and those behind it are left
alone. -/
theorem prepareFrom_cases (index : Nat) (ks : List Hook) (h : Host) :
    (callEach .prepare ks h).Succeeds ∧
        prepareFrom index ks h =
          (none, (callEach .prepare ks h).hooks, (callEach .prepare ks h).host) ∨
      ∃ before k after e, ks = before ++ k :: after ∧ Breaks .prepare before k h e ∧
        prepareFrom index ks h = (some ⟨index + before.length, k.name, e⟩,
          (callEach .prepare before h).hooks ++ (callNext .prepare before k h).2.1 :: after,
          (callNext .prepare before k h).2.2) := by
  induction ks generalizing index h with
  | nil => exact .inl ⟨succeeds_nil, rfl⟩
  | cons k ks ih =>
      rcases hcall : k.call .prepare h with ⟨r, k', h'⟩
      have hname : k'.name = k.name := by
        rw [← name_call .prepare k h, hcall]
      cases r with
      | error e =>
          refine .inr ⟨[], k, ks, e, rfl, ⟨succeeds_nil, congrArg Prod.fst hcall⟩, ?_⟩
          simp only [prepareFrom, Hook.prepare, hcall, hname, callNext, callEach, length_nil,
            Nat.add_zero, nil_append]
      | ok u =>
          have hcons := callEach_cons hcall
          rcases ih (index + 1) h' with
            ⟨hsucceeds, heq⟩ | ⟨before, q, after, e, rfl, hbreaks, heq⟩
          · refine .inl ⟨?_, ?_⟩
            · rw [hcons]
              exact forall_mem_cons.mpr ⟨rfl, hsucceeds⟩
            · simp only [prepareFrom, Hook.prepare, hcall, heq, hcons]
          · have hnext := callNext_cons (q := q) hcall before
            refine .inr ⟨k :: before, q, after, e, rfl, ⟨?_, ?_⟩, ?_⟩
            · rw [hcons]
              exact forall_mem_cons.mpr ⟨rfl, hbreaks.succeeds⟩
            · rw [hnext]
              exact hbreaks.fails
            · have hindex : index + 1 + before.length = index + (before.length + 1) := by omega
              simp only [prepareFrom, Hook.prepare, hcall, heq, hcons, hnext, hindex, length_cons,
                cons_append]

/-! ## Attaching -/

inductive AttachSweep (ks : List Hook) (h : Host) : Except BatchError Unit → Batch → Prop
  | attached (succeeds : (callEach .attach ks h).Succeeds) :
      AttachSweep ks h (.ok ()) ⟨(callEach .attach ks h).hooks, true⟩
  | takenBack {before k after e} (hooks : ks = before ++ k :: after)
      (breaks : Breaks .attach before k h e)
      (undone : (takeBack .attach .detach before k h).Succeeds) :
      AttachSweep ks h (.error (.attach before.length k.name e))
        ⟨(takeBack .attach .detach before k h).hooks.reverse ++
          (callNext .attach before k h).2.1 :: after, false⟩
  | stuck {before k after e i index q e'} (hooks : ks = before ++ k :: after)
      (breaks : Breaks .attach before k h e) (hook : before[index]? = some q)
      (place : index + i + 1 = before.length)
      (fails : (takeBack .attach .detach before k h).FailsFirst i e') :
      AttachSweep ks h (.error (.stuck index q.name k.name e'))
        ⟨(takeBack .attach .detach before k h).hooks.reverse ++
          (callNext .attach before k h).2.1 :: after, true⟩

inductive AttachCourse (ks : List Hook) (h : Host) : Except BatchError Unit → Batch → Prop
  | unprepared {before k after e} (hooks : ks = before ++ k :: after)
      (breaks : Breaks .prepare before k h e) :
      AttachCourse ks h (.error (.attach before.length k.name e))
        ⟨(callEach .prepare before h).hooks ++ (callNext .prepare before k h).2.1 :: after, false⟩
  | prepared {r b'} (succeeds : (callEach .prepare ks h).Succeeds)
      (sweep : AttachSweep (callEach .prepare ks h).hooks (callEach .prepare ks h).host r b') :
      AttachCourse ks h r b'

/-- However its hooks answer, attaching the batch goes one of these ways. -/
theorem attach_course (hb : b.attached = false) (h : Host) :
    AttachCourse b.hooks h (b.attach h).1 (b.attach h).2.1 := by
  obtain ⟨ks, attached⟩ := b
  cases hb
  rcases prepareFrom_cases 0 ks h with ⟨hprepared, heq⟩ | ⟨before, k, after, e, rfl, hbreaks, heq⟩
  · refine .prepared hprepared ?_
    simp only [attach, if_neg Bool.false_ne_true, heq]
    generalize (callEach .prepare ks h).hooks = ks, (callEach .prepare ks h).host = h
    have houtcome := Sweep.run_outcome .attach .detach (number 0 ks) h
    rw [map_number] at houtcome
    rcases houtcome with ⟨hsucceeds, swept, hhooks, hrun⟩ |
      ⟨front, p, back, e, swept, stuck, hsplit, hbreaks, hrun, hhooks, hends⟩
    · simp only [hrun]
      rw [hhooks]
      exact .attached hsucceeds
    · obtain ⟨rfl, hplace⟩ := split_number hsplit
      rw [← length_map Prod.snd] at hplace
      simp only [hrun, hplace]
      rw [hhooks]
      rcases hends with ⟨rfl, hundone⟩ | ⟨i, q, e', hq, hfails, rfl⟩
      · exact .takenBack rfl hbreaks hundone
      · obtain ⟨j, hj, hlength⟩ := place_of_reverse hq
        have hnumber :
            (number 0 (front.map Prod.snd ++ p.2 :: back.map Prod.snd))[j]? = some q := by
          rw [hsplit, getElem?_append_left (by omega), hj]
        have hindex := (fst_of_number hnumber).1
        rw [Nat.zero_add] at hindex
        subst hindex
        refine .stuck rfl hbreaks ?_ ?_ hfails
        · rw [getElem?_map, hj]
          rfl
        · rwa [length_map]
  · simp only [attach, if_neg Bool.false_ne_true, heq, Nat.zero_add]
    exact .unprepared rfl hbreaks

/-! ## Detaching -/

inductive DetachCourse (ks : List Hook) (h : Host) : Except BatchError Unit → Batch → Prop
  | detached (succeeds : (callEach .detach ks.reverse h).Succeeds) :
      DetachCourse ks h (.ok ()) ⟨(callEach .detach ks.reverse h).hooks.reverse, false⟩
  | restored {before k after e} (hooks : ks = before ++ k :: after)
      (breaks : Breaks .detach after.reverse k h e)
      (redone : (takeBack .detach .attach after.reverse k h).Succeeds) :
      DetachCourse ks h (.error (.detach before.length k.name e))
        ⟨before ++ (callNext .detach after.reverse k h).2.1 ::
          (takeBack .detach .attach after.reverse k h).hooks, true⟩
  | stuck {before k after e i q e'} (hooks : ks = before ++ k :: after)
      (breaks : Breaks .detach after.reverse k h e) (hook : after[i]? = some q)
      (fails : (takeBack .detach .attach after.reverse k h).FailsFirst i e') :
      DetachCourse ks h (.error (.stuck (before.length + 1 + i) q.name k.name e'))
        ⟨before ++ (callNext .detach after.reverse k h).2.1 ::
          (takeBack .detach .attach after.reverse k h).hooks, true⟩

theorem detach_course (hb : b.attached = true) (h : Host) :
    DetachCourse b.hooks h (b.detach h).1 (b.detach h).2.1 := by
  obtain ⟨ks, attached⟩ := b
  cases hb
  have houtcome := Sweep.run_outcome .detach .attach (number 0 ks).reverse h
  rw [map_reverse, map_number] at houtcome
  simp only [detach, if_true]
  rcases houtcome with ⟨hsucceeds, swept, hhooks, hrun⟩ |
    ⟨front, p, back, e, swept, stuck, hsplit, hbreaks, hrun, hhooks, hends⟩
  · simp only [hrun]
    rw [map_reverse, hhooks]
    exact .detached hsucceeds
  · -- the hooks that were called first stand last in the batch
    have hnumber : number 0 ks = back.reverse ++ p :: front.reverse := by
      rw [← reverse_reverse (number 0 ks), hsplit, reverse_append, reverse_cons, append_assoc,
        singleton_append]
    obtain ⟨rfl, hplace⟩ := split_number hnumber
    have hfront : front.map Prod.snd = (front.reverse.map Prod.snd).reverse := by
      rw [map_reverse, reverse_reverse]
    rw [hfront] at hbreaks hrun hhooks hends
    have hafter : (swept.reverse.map Prod.snd) = back.reverse.map Prod.snd ++
        (callNext .detach (front.reverse.map Prod.snd).reverse p.2 h).2.1 ::
          (takeBack .detach .attach (front.reverse.map Prod.snd).reverse p.2 h).hooks := by
      rw [map_reverse (l := swept), hhooks, reverse_append, reverse_cons, reverse_reverse,
        append_assoc, singleton_append, map_reverse (l := back)]
    rw [← length_map Prod.snd] at hplace
    simp only [hrun, hplace]
    rw [hafter]
    rcases hends with ⟨rfl, hredone⟩ | ⟨i, q, e', hq, hfails, rfl⟩
    · exact .restored rfl hbreaks hredone
    · have hplaced : (number 0 (back.reverse.map Prod.snd ++ p.2 :: front.reverse.map Prod.snd))[
          back.reverse.length + 1 + i]? = some q := by
        rw [hnumber, Nat.add_assoc, getElem?_append_right (Nat.le_add_right _ _),
          Nat.add_sub_cancel_left, Nat.add_comm 1 i, getElem?_cons_succ, hq]
      have hindex := (fst_of_number hplaced).1
      rw [Nat.zero_add, ← length_map Prod.snd] at hindex
      simp only [hindex]
      refine .stuck rfl hbreaks ?_ hfails
      rw [getElem?_map, hq]
      rfl

/-! ## Names -/

theorem AttachSweep.names {ks : List Hook} {r : Except BatchError Unit} {b' : Batch}
    (hs : AttachSweep ks h r b') : b'.names = ks.map Hook.name := by
  have hback (before : List Hook) (k : Hook) (after : List Hook) :
      ((takeBack .attach .detach before k h).hooks.reverse ++
        (callNext .attach before k h).2.1 :: after).map Hook.name =
          (before ++ k :: after).map Hook.name := by
    rw [map_append, map_append, map_reverse, takeBack, names_callEach, ← map_reverse,
      reverse_reverse, names_callEach, map_cons, map_cons, callNext, name_call]
  cases hs with
  | attached => exact names_callEach ..
  | takenBack hooks => exact hooks ▸ hback ..
  | stuck hooks => exact hooks ▸ hback ..

theorem AttachCourse.names {ks : List Hook} {r : Except BatchError Unit} {b' : Batch}
    (hc : AttachCourse ks h r b') : b'.names = ks.map Hook.name := by
  cases hc with
  | @unprepared before k after e hooks =>
      subst hooks
      rw [Batch.names, map_append, map_append, names_callEach, map_cons, map_cons, callNext,
        name_call]
  | prepared _ sweep => exact sweep.names.trans (names_callEach ..)

theorem DetachCourse.names {ks : List Hook} {r : Except BatchError Unit}
    {b' : Batch} (hc : DetachCourse ks h r b') : b'.names = ks.map Hook.name := by
  have hback (before : List Hook) (k : Hook) (after : List Hook) :
      (before ++ (callNext .detach after.reverse k h).2.1 ::
        (takeBack .detach .attach after.reverse k h).hooks).map Hook.name =
          (before ++ k :: after).map Hook.name := by
    rw [map_append, map_append, map_cons, map_cons, callNext, name_call, takeBack, names_callEach,
      map_reverse, names_callEach, ← map_reverse, reverse_reverse]
  cases hc with
  | detached => rw [Batch.names, map_reverse, names_callEach, ← map_reverse, reverse_reverse]
  | restored hooks => exact hooks ▸ hback ..
  | stuck hooks => exact hooks ▸ hback ..

theorem names_attach (hb : b.attached = false) (h : Host) : (b.attach h).2.1.names = b.names :=
  (attach_course hb h).names

theorem names_detach (hb : b.attached = true) (h : Host) : (b.detach h).2.1.names = b.names :=
  (detach_course hb h).names

end Batch

end HotPatch
