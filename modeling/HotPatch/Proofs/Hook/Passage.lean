import HotPatch.Proofs.Hook.Calls

/-!
# Passages always lead to the function

The interceptor of an inline hook reaches the function through a passage: by way of the trampoline
while the hook is attached, and directly otherwise. Calls to hooks with passages of their own, in
whatever order and with whatever failures, leave every passage where it should lead.
-/

namespace HotPatch

open Host Trampoline

variable {h h' : Host}

def Trampoline.Slot.Holds (s : Slot) (x : Address) : Prop :=
  s.address ≤ x ∧ x < s.address + s.length

/-- From `h` to `h'` memory is lent, at the most, and something is written to it. -/
structure Host.Lends (h : Host) (slot : Slot) (h' : Host) : Prop where
  memory : h.memory.SameOff slot.Holds h'.memory
  dealings : h'.dealings = .lent slot :: h.dealings
  passages : h'.passages = h.passages
  ownWrites : h'.ownWrites = h.ownWrites
  sound : h'.pool.Sound

theorem Memory.SameOff.store {m m' : Memory} {slot : Slot} (hs : m.SameOff slot.Holds m')
    {bs : List UInt8} (hroom : bs.length ≤ slot.length) :
    m.SameOff slot.Holds (m'.store slot.address bs) where
  page := hs.page
  byte x hx hout := by
    rw [← hs.byte x hx hout]
    exact byte_store_of_not_mem fun hmem ↦
      hout ⟨hmem.1, Nat.lt_of_lt_of_le hmem.2 (Nat.add_le_add_left hroom _)⟩

namespace Host

theorem allocate_lends (hs : h.pool.Sound) {origin : Address} {size : Nat}
    (hsize : size ≤ pageSize) {slot : Slot} {h₁ : Host}
    (hlent : h.allocate origin size = (some slot, h₁)) : h.Lends slot h₁ := by
  unfold allocate at hlent
  rcases Pool.allocate_cases hs hsize h.memory origin with
    heq | ⟨slot', pool, m, heq, -, hsound, -, hgrown⟩
  · rw [heq] at hlent
    cases hlent
  · rw [heq] at hlent
    cases hlent
    refine ⟨?_, rfl, rfl, rfl, hsound⟩
    rcases hgrown with ⟨rfl, -⟩ | ⟨n, hn, rfl, -⟩
    · exact .refl _
    · exact .map hn .all

theorem allocate_eq_none (hs : h.pool.Sound) {origin : Address} {size : Nat}
    (hsize : size ≤ pageSize) {h₁ : Host} (hnone : h.allocate origin size = (none, h₁)) :
    h₁ = h := by
  unfold allocate at hnone
  rcases Pool.allocate_cases hs hsize h.memory origin with heq | ⟨_, _, _, heq, -⟩
  · rw [heq] at hnone
    cases hnone
    rfl
  · rw [heq] at hnone
    cases hnone

end Host

namespace InlineHook

variable {k k' : InlineHook}

/-- Where the interceptor reaches the function. -/
def exit (k : InlineHook) : Address :=
  match k.stage with
  | .active work => work.trampoline.address
  | .fresh | .ready _ => k.target

/-! ## How a call goes -/

inductive Course (k : InlineHook) (h : Host) : InlineHook → Host → Prop
  | same : Course k h k h
  /-- The preparation failed after memory was lent for it. -/
  | failed {slot : Slot} {h₁ : Host} (hfresh : k.stage = .fresh) (hlends : h.Lends slot h₁) :
      Course k h k (h₁.free slot)
  | prepared {slot : Slot} {h₁ : Host} {block : List Code.Instruction} {r : UndoRecord}
      (hfresh : k.stage = .fresh) (hlends : h.Lends slot h₁)
      (hcapture : UndoRecord.capture h₁.memory k.target
        (Prologue.redirect k.detour (Prologue.size block)) = .ok r) :
      Course k h { k with stage := .ready ⟨slot, r, false⟩ } h₁
  | attached {work : Redirect} (hready : k.stage = .ready work)
      (hfit : work.record.Fits h.memory) :
      Course k h { k with stage := .active { work with published := true } }
        ((h.publish k.passage work.trampoline).withMemory (work.record.onto h.memory))
  | refused {work : Redirect} (hready : k.stage = .ready work) :
      Course k h { k with stage := .ready { work with published := true } }
        ((h.publish k.passage work.trampoline).setPassage k.passage k.target)
  | detached {work : Redirect} (hactive : k.stage = .active work)
      (hfit : work.record.inverse.Fits h.memory) :
      Course k h { k with stage := .ready work }
        ((h.withMemory (work.record.inverse.onto h.memory)).setPassage k.passage k.target)

/-- Filling a slot that was lent. -/
theorem Filling.lends {block : List Code.Instruction} {slot : Slot} {h₁ : Host}
    {o : Except HookError Redirect × Host} (hf : k.Filling block slot h₁ o)
    (hlends : h.Lends slot h₁) : h.Lends slot o.2 := by
  cases hf with
  | unwritten => exact hlends
  | unread hroom => exact { hlends with memory := hlends.memory.store hroom }
  | filled _ hroom => exact { hlends with memory := hlends.memory.store hroom }

theorem prepare_course (k : InlineHook) (hs : h.pool.Sound) :
    Course k h (k.prepare h).2.1 (k.prepare h).2.2 := by
  have hp := k.preparing h
  generalize k.prepare h = o at hp ⊢
  cases hp with
  | done => exact .same
  | unstolen => exact .same
  | unlent _ hsteal hnone =>
      rw [Host.allocate_eq_none hs (room_le hsteal) hnone]
      exact .same
  | unfilled hfresh hsteal hlent hfill =>
      exact .failed hfresh (hfill.lends (Host.allocate_lends hs (room_le hsteal) hlent))
  | prepared hfresh hsteal hlent hfill =>
      have hlends := hfill.lends (Host.allocate_lends hs (room_le hsteal) hlent)
      cases hfill with
      | filled _ _ hcapture =>
          -- the report does not count as a change
          exact .prepared hfresh { hlends with } hcapture

theorem attach_course (k : InlineHook) (h : Host) :
    Course k h (k.attach h).2.1 (k.attach h).2.2 := by
  obtain ⟨name, target, detour, passage, stage⟩ := k
  cases stage with
  | active work => exact .same
  | fresh => exact .same
  | ready work =>
      unfold attach
      dsimp only
      by_cases hfit : work.record.Fits h.memory
      · rw [UndoRecord.applyQuietly_eq_ok (h := h.publish passage work.trampoline) hfit]
        exact .attached rfl hfit
      · obtain ⟨e, he⟩ := UndoRecord.applyQuietly_eq_error
          (h := h.publish passage work.trampoline) hfit
        rw [he]
        exact .refused rfl

theorem detach_course (k : InlineHook) (h : Host) :
    Course k h (k.detach h).2.1 (k.detach h).2.2 := by
  obtain ⟨name, target, detour, passage, stage⟩ := k
  cases stage with
  | fresh => exact .same
  | ready work => exact .same
  | active work =>
      unfold detach
      dsimp only
      rw [UndoRecord.restoreQuietly_eq]
      by_cases hfit : work.record.inverse.Fits h.memory
      · rw [UndoRecord.applyQuietly_eq_ok hfit]
        exact .detached rfl hfit
      · obtain ⟨e, he⟩ := UndoRecord.applyQuietly_eq_error hfit
        rw [he]
        exact .same

theorem call_course (k : InlineHook) (c : HookCall) (hs : h.pool.Sound) :
    ∃ k', ((Hook.inline k).call c h).2.1 = .inline k' ∧
      Course k h k' ((Hook.inline k).call c h).2.2 := by
  cases c with
  | prepare => exact ⟨_, rfl, k.prepare_course hs⟩
  | attach => exact ⟨_, rfl, k.attach_course h⟩
  | detach => exact ⟨_, rfl, k.detach_course h⟩

/-! ## What every call keeps -/

namespace Course

theorem passage_eq (hc : Course k h k' h') : k'.passage = k.passage := by
  cases hc <;> rfl

theorem sound (hc : Course k h k' h') (hs : h.pool.Sound) : h'.pool.Sound := by
  cases hc with
  | failed _ hlends => exact Pool.free_sound hlends.sound _
  | prepared _ hlends => exact hlends.sound
  | same => exact hs
  | attached => exact hs
  | refused => exact hs
  | detached => exact hs

/-- A passage that leads where it should still does. -/
theorem exit_eq (hc : Course k h k' h') (hpassage : h.passages k.passage = k.exit) :
    h'.passages k.passage = k'.exit := by
  cases hc with
  | same => exact hpassage
  | failed _ hlends => exact (congrFun hlends.passages _).trans hpassage
  | prepared hfresh hlends =>
      rw [hlends.passages, hpassage, exit, hfresh]
      rfl
  | attached => exact if_pos rfl
  | refused => exact if_pos rfl
  | detached => exact if_pos rfl

/-- Other passages stay as they are. -/
theorem passages_of_ne (hc : Course k h k' h') {p : Nat} (hp : p ≠ k.passage) :
    h'.passages p = h.passages p := by
  cases hc with
  | same => rfl
  | failed _ hlends => exact congrFun hlends.passages p
  | prepared _ hlends => exact congrFun hlends.passages p
  | attached => exact if_neg hp
  | refused => exact (if_neg hp).trans (if_neg hp)
  | detached => exact if_neg hp

end Course

end InlineHook

namespace Hook

variable {k : Hook} {ks ks' : List Hook}

def passage? : Hook → Option Nat
  | .inline k => some k.passage
  | .slot _ | .scripted _ => none

/-- Inline hooks with passages of their own, each of which leads where it should. -/
structure Served (h : Host) (ks : List Hook) : Prop where
  sound : h.pool.Sound
  leads : ∀ k ∈ ks, ∃ i, k = .inline i ∧ h.passages i.passage = i.exit
  distinct : (ks.filterMap passage?).Nodup

theorem Served.perm (hs : Served h ks) (hperm : ks.Perm ks') : Served h ks' where
  sound := hs.sound
  leads k hk := hs.leads k (hperm.mem_iff.mpr hk)
  distinct := (hperm.filterMap passage?).nodup_iff.mp hs.distinct

/-- No other hook has the passage of the first one. -/
theorem Served.passage_ne {i j : InlineHook} (hs : Served h (.inline i :: ks))
    (hj : .inline j ∈ ks) : j.passage ≠ i.passage := by
  intro heq
  have hdistinct : (i.passage :: ks.filterMap passage?).Nodup := hs.distinct
  exact (List.nodup_cons.mp hdistinct).1 (heq ▸ List.mem_filterMap.mpr ⟨_, hj, rfl⟩)

/-- A call to one hook leaves every passage leading where it should. -/
theorem Served.call {i i' : InlineHook} (hs : Served h (.inline i :: ks))
    (hc : InlineHook.Course i h i' h') : Served h' (.inline i' :: ks) where
  sound := hc.sound hs.sound
  leads := by
    obtain ⟨hfirst, hrest⟩ := List.forall_mem_cons.mp hs.leads
    obtain ⟨_, ⟨⟩, hpassage⟩ := hfirst
    refine List.forall_mem_cons.mpr ⟨⟨i', rfl, ?_⟩, fun k hk ↦ ?_⟩
    · rw [hc.passage_eq]
      exact hc.exit_eq hpassage
    · obtain ⟨j, rfl, hj⟩ := hrest k hk
      refine ⟨j, rfl, ?_⟩
      rw [hc.passages_of_ne (hs.passage_ne hk), hj]
  distinct := by
    have hdistinct : (i.passage :: ks.filterMap passage?).Nodup := hs.distinct
    rw [← hc.passage_eq] at hdistinct
    exact hdistinct

/-- The first hook and the way its call goes. -/
theorem Served.call_course (hs : Served h (k :: ks)) (c : HookCall) :
    ∃ i i', k = .inline i ∧ (k.call c h).2.1 = .inline i' ∧
      InlineHook.Course i h i' (k.call c h).2.2 := by
  obtain ⟨i, rfl, -⟩ := hs.leads k (List.mem_cons_self ..)
  obtain ⟨i', heq, hc⟩ := i.call_course c hs.sound
  exact ⟨i, i', rfl, heq, hc⟩

/-- No calls to hooks, in whatever order, lead a passage astray or take it from its hook. -/
theorem Calls.served (a : Calls h ks h' ks') (hs : Served h ks) :
    Served h' ks' ∧ (ks'.filterMap passage?).Perm (ks.filterMap passage?) := by
  induction a with
  | perm hperm => exact ⟨hs.perm hperm, hperm.symm.filterMap passage?⟩
  | note h ks level message => exact ⟨⟨hs.sound, hs.leads, hs.distinct⟩, .refl _⟩
  | call k c h ks =>
      obtain ⟨i, i', rfl, heq, hc⟩ := hs.call_course c
      rw [heq]
      refine ⟨hs.call hc, ?_⟩
      have hsame : passage? (.inline i') = passage? (.inline i) := congrArg some hc.passage_eq
      rw [List.filterMap_cons, List.filterMap_cons, hsame]
  | trans _ _ ih₁ ih₂ =>
      obtain ⟨hs₁, hperm₁⟩ := ih₁ hs
      obtain ⟨hs', hperm₂⟩ := ih₂ hs₁
      exact ⟨hs', hperm₂.trans hperm₁⟩

end Hook

end HotPatch
