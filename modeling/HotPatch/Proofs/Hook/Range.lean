import HotPatch.Proofs.Disjoint
import HotPatch.Proofs.Hook.Passage
import HotPatch.Proofs.Memory.Access

/-!
# What the range of a prepared hook holds

The preparation of an inline hook settles the bytes of its redirect and captures those that it
replaces. As long as nothing else comes over that range, it holds the redirect while the hook is
attached and the captured bytes while it is not, whatever becomes of the calls to this and to other
hooks.
-/

namespace HotPatch

open Host Trampoline

variable {h h' : Host} {d : List Dealing} {w : List UndoRecord} {q : Nat} {ks ks' : List Hook}

namespace Prologue

/-- A redirect that is too long for the stolen bytes is none the longer for that. -/
theorem redirect_length (detour : Address) (stolen : Nat) :
    redirect detour (redirect detour stolen).length = redirect detour stolen := by
  have hpad : max Code.jumpAbsoluteLength stolen - Code.jumpAbsoluteLength =
      stolen - Code.jumpAbsoluteLength := by omega
  rw [length_redirect, redirect, hpad, redirect]

end Prologue

theorem UndoRecord.capture_mapped {m : Memory} {a : Address} {new : List UInt8} {r : UndoRecord}
    (hc : capture m a new = .ok r) {x : Address} (hx : r.Covers x) : m.Mapped x := by
  obtain ⟨haccessible, rfl⟩ := capture_eq_ok_iff.mp hc
  exact Memory.mapped_of_readable (haccessible.2 x hx.1 hx.2)

/-! ## What comes over a range -/

/-- Nothing comes over the range of the record, which is that of a hook with the passage `q` and the
trampoline `slot`: it overlaps no range of another hook among `ks`, nothing that the host wrote
after `w`, and no memory that was lent after the trampoline, which was lent after `d`. -/
structure Host.Leaves (h : Host) (ks : List Hook) (q : Nat) (d : List Dealing) (w : List UndoRecord)
    (r : UndoRecord) (slot : Slot) : Prop where
  hooks : ∀ k work, .inline k ∈ ks → k.passage ≠ q → k.stage.work? = some work →
    r.Disjoint work.record
  writes : ∀ newer, h.ownWrites = newer ++ w → ∀ own ∈ newer, r.Disjoint own
  slots : ∀ newer between, h.dealings = newer ++ .lent slot :: between ++ d →
    ∀ other, .lent other ∈ newer → r.Avoids other.Holds

namespace InlineHook

variable {k k' j : InlineHook} {r : UndoRecord} {slot : Slot} {work : Redirect}

def due (k : InlineHook) (work : Redirect) : List UInt8 :=
  if k.stage.isActive then work.record.after else work.record.before

/-- The hook was prepared after `d` was dealt and `w` written, and unless something comes over its
range, it holds what it is to hold. -/
structure Kept (k : InlineHook) (d : List Dealing) (w : List UndoRecord) (h : Host) (ks : List Hook)
    (work : Redirect) : Prop where
  address : work.record.address = k.target
  after : work.record.after = Prologue.redirect k.detour work.record.before.length
  mapped : ∀ x, work.record.Covers x → h.memory.Mapped x
  lent : ∃ newer between, h.dealings = newer ++ .lent work.trampoline :: between ++ d
  holds : h.Leaves ks k.passage d w work.record work.trampoline →
    h.memory.bytes work.record.address work.record.before.length = k.due work

namespace Course

theorem ownWrites_eq (hc : Course k h k' h') : h'.ownWrites = h.ownWrites := by
  cases hc with
  | failed _ hlends => exact hlends.ownWrites
  | prepared _ hlends => exact hlends.ownWrites
  | same => rfl
  | attached => rfl
  | refused => rfl
  | detached => rfl

theorem dealings_suffix (hc : Course k h k' h') : h.dealings <:+ h'.dealings := by
  cases hc with
  | same => exact List.suffix_rfl
  | @failed slot h₁ _ hlends =>
      have hlent : h.dealings <:+ h₁.dealings := hlends.dealings ▸ List.suffix_cons ..
      exact hlent.trans (List.suffix_cons ..)
  | prepared _ hlends =>
      rw [hlends.dealings]
      exact List.suffix_cons ..
  | attached => exact List.suffix_cons ..
  | refused => exact List.suffix_cons ..
  | detached => exact List.suffix_rfl

theorem mapped (hc : Course k h k' h') {x : Address} (hx : h.memory.Mapped x) :
    h'.memory.Mapped x := by
  cases hc with
  | failed _ hlends => exact hlends.memory.mapped hx
  | prepared _ hlends => exact hlends.memory.mapped hx
  | same => exact hx
  | attached => exact hx
  | refused => exact hx
  | detached => exact hx

/-- A prepared hook stays prepared, with the record that it has. -/
theorem work_eq (hc : Course k h k' h') (hwork : k.stage.work? = some work) :
    ∃ work', k'.stage.work? = some work' ∧ work'.record = work.record := by
  cases hc with
  | same => exact ⟨work, hwork, rfl⟩
  | failed hfresh => simp [hfresh, Stage.work?] at hwork
  | prepared hfresh => simp [hfresh, Stage.work?] at hwork
  | attached hready =>
      rw [hready] at hwork
      cases hwork
      exact ⟨_, rfl, rfl⟩
  | refused hready =>
      rw [hready] at hwork
      cases hwork
      exact ⟨_, rfl, rfl⟩
  | detached hactive =>
      rw [hactive] at hwork
      cases hwork
      exact ⟨_, rfl, rfl⟩

/-- A call changes bytes of the hook's range and of memory that is lent for it, and no others. -/
theorem byte_eq (hc : Course k h k' h') {x : Address} (hx : h.memory.Mapped x)
    (hrange : ∀ work, k'.stage.work? = some work → ¬ work.record.Covers x)
    (hlent : ∀ newer other, h'.dealings = newer ++ .lent other :: h.dealings → ¬ other.Holds x) :
    h'.memory.byte x = h.memory.byte x := by
  cases hc with
  | same => rfl
  | refused => rfl
  | @failed slot _ _ hlends =>
      refine hlends.memory.byte x hx (hlent [.returned slot] slot ?_)
      exact congrArg _ hlends.dealings
  | prepared _ hlends => exact hlends.memory.byte x hx (hlent [] _ hlends.dealings)
  | @attached work =>
      exact work.record.byte_onto_of_not_covers _ (hrange { work with published := true } rfl)
  | @detached work _ hfit =>
      refine work.record.inverse.byte_onto_of_not_covers _ fun hcovers ↦ hrange work rfl ?_
      exact (UndoRecord.covers_inverse work.record x).mp hcovers

end Course

end InlineHook

namespace Host.Leaves

variable {k k' : InlineHook} {r : UndoRecord} {slot : Slot}

/-- What came over a range by the end of a call may have done so before. -/
theorem of_course (hl : h'.Leaves (.inline k' :: ks) q d w r slot)
    (hc : InlineHook.Course k h k' h') : h.Leaves (.inline k :: ks) q d w r slot where
  hooks i work hi hne hwork := by
    rcases List.mem_cons.mp hi with heq | hi
    · cases heq
      obtain ⟨work', hwork', hrecord⟩ := hc.work_eq hwork
      rw [← hrecord]
      exact hl.hooks k' work' (List.mem_cons_self ..) (hc.passage_eq ▸ hne) hwork'
    · exact hl.hooks i work (List.mem_cons_of_mem _ hi) hne hwork
  writes newer hsplit := hl.writes newer (hc.ownWrites_eq.trans hsplit)
  slots newer between hsplit other hother := by
    obtain ⟨last, hlast⟩ := hc.dealings_suffix
    rw [hsplit, ← List.append_assoc, ← List.append_assoc] at hlast
    exact hl.slots _ between hlast.symm other (List.mem_append_right last hother)

/-- What is lent in the end is lent after a trampoline that was lent before. -/
theorem avoids (hl : h'.Leaves ks q d w r slot)
    (hlent : ∃ newer between, h.dealings = newer ++ .lent slot :: between ++ d)
    {newer : List Dealing} {other : Slot}
    (hsplit : h'.dealings = newer ++ .lent other :: h.dealings) : r.Avoids other.Holds := by
  obtain ⟨middle, between, heq⟩ := hlent
  rw [heq, ← List.cons_append, ← List.cons_append, ← List.append_assoc, ← List.append_assoc]
    at hsplit
  refine hl.slots _ between hsplit other ?_
  exact List.mem_append_right newer (List.mem_cons_self ..)

end Host.Leaves

namespace InlineHook

variable {k k' j : InlineHook} {work : Redirect}

/-- A call to another hook. -/
theorem Kept.other (hk : j.Kept d w h (.inline k :: ks) work) (hc : Course k h k' h')
    (hne : k.passage ≠ j.passage) : j.Kept d w h' (.inline k' :: ks) work where
  address := hk.address
  after := hk.after
  mapped x hx := hc.mapped (hk.mapped x hx)
  lent := by
    obtain ⟨newer, between, hsplit⟩ := hk.lent
    obtain ⟨last, hlast⟩ := hc.dealings_suffix
    rw [hsplit, ← List.append_assoc, ← List.append_assoc] at hlast
    exact ⟨_, between, hlast.symm⟩
  holds hl := by
    rw [← hk.holds (hl.of_course hc)]
    refine Memory.bytes_congr fun x hlow hhigh ↦ ?_
    have hx : work.record.Covers x := ⟨hlow, work.record.length_eq ▸ hhigh⟩
    refine hc.byte_eq (hk.mapped x hx) (fun other hother ↦ ?_) fun newer other hsplit ↦ ?_
    · exact hl.hooks k' other (List.mem_cons_self ..) (hc.passage_eq ▸ hne) hother x hx
    · exact hl.avoids hk.lent hsplit x hx

/-- A call to the hook itself. -/
theorem Course.kept (hc : Course k h k' h') (hd : d <:+ h.dealings)
    (hk : ∀ work, k.stage.work? = some work → k.Kept d w h (.inline k :: ks) work)
    (hwork : k'.stage.work? = some work) : k'.Kept d w h' (.inline k' :: ks) work := by
  have hleaves {r : UndoRecord} {slot : Slot}
      (hl : h'.Leaves (.inline k' :: ks) k.passage d w r slot) :
      h.Leaves (.inline k :: ks) k.passage d w r slot := hl.of_course hc
  cases hc with
  | same => exact hk work hwork
  | failed hfresh => simp [hfresh, Stage.work?] at hwork
  | prepared hfresh hlends hcapture =>
      cases hwork
      have hr := UndoRecord.capture_eq_ok hcapture
      have hmapped (x : Address) := UndoRecord.capture_mapped (x := x) hcapture
      subst hr
      have hlent := hlends.dealings
      obtain ⟨between, hbetween⟩ := hd
      rw [← hbetween] at hlent
      refine ⟨rfl, ?_, hmapped, ⟨[], between, hlent⟩, fun _ ↦ ?_⟩
      · rw [UndoRecord.length_eq, UndoRecord.ofWrite, Prologue.redirect_length]
      · rw [UndoRecord.length_eq]
        rfl
  | attached hready hfit =>
      cases hwork
      have hold := hk _ (congrArg Stage.work? hready)
      refine { hold with lent := ?_, holds := fun _ ↦ ?_ }
      · obtain ⟨newer, between, hsplit⟩ := hold.lent
        exact ⟨.published _ :: newer, between, congrArg _ hsplit⟩
      · rw [UndoRecord.length_eq]
        exact Memory.bytes_store ..
  | refused hready =>
      cases hwork
      have hold := hk _ (congrArg Stage.work? hready)
      refine { hold with lent := ?_, holds := fun hl ↦ ?_ }
      · obtain ⟨newer, between, hsplit⟩ := hold.lent
        exact ⟨.published _ :: newer, between, congrArg _ hsplit⟩
      · have hbytes := hold.holds (hleaves hl)
        rw [due, hready] at hbytes
        exact hbytes
  | detached hactive =>
      cases hwork
      have hold := hk _ (congrArg Stage.work? hactive)
      exact { hold with holds := fun _ ↦ Memory.bytes_store .. }

end InlineHook

/-! ## All calls -/

namespace Hook

/-- What a hook with the passage `q` was prepared for after `d` and `w` is kept. -/
structure Watched (q : Nat) (d : List Dealing) (w : List UndoRecord) (h : Host) (ks : List Hook) :
    Prop where
  dealings : d <:+ h.dealings
  ownWrites : w <:+ h.ownWrites
  kept : ∀ k work, .inline k ∈ ks → k.passage = q → k.stage.work? = some work →
    k.Kept d w h ks work

/-- Whichever hook is called, what is watched is kept. -/
theorem Watched.call {k k' : InlineHook} (hw : Watched q d w h (.inline k :: ks))
    (hs : Served h (.inline k :: ks)) (hc : InlineHook.Course k h k' h') :
    Watched q d w h' (.inline k' :: ks) where
  dealings := hw.dealings.trans hc.dealings_suffix
  ownWrites := hc.ownWrites_eq.symm ▸ hw.ownWrites
  kept j work hj hq hwork := by
    rcases List.mem_cons.mp hj with heq | hj
    · cases heq
      refine hc.kept hw.dealings (fun work hwork ↦ ?_) hwork
      exact hw.kept k work (List.mem_cons_self ..) (hc.passage_eq ▸ hq) hwork
    · have hold := hw.kept j work (List.mem_cons_of_mem _ hj) hq hwork
      exact hold.other hc (hs.passage_ne hj).symm

theorem Watched.perm (hw : Watched q d w h ks) (hperm : ks.Perm ks') : Watched q d w h ks' where
  dealings := hw.dealings
  ownWrites := hw.ownWrites
  kept k work hk hq hwork := by
    have hold := hw.kept k work (hperm.mem_iff.mpr hk) hq hwork
    refine { hold with holds := fun hl ↦ hold.holds ⟨fun i v hi ↦ ?_, hl.writes, hl.slots⟩ }
    exact hl.hooks i v (hperm.mem_iff.mp hi)

theorem Calls.watched (a : Calls h ks h' ks') (hs : Served h ks) (hw : Watched q d w h ks) :
    Watched q d w h' ks' := by
  induction a with
  | perm hperm => exact hw.perm hperm
  | note h ks level message =>
      refine ⟨hw.dealings, hw.ownWrites, fun k work hk hq hwork ↦ ?_⟩
      have hold := hw.kept k work hk hq hwork
      exact { hold with holds := fun hl ↦ hold.holds { hl with } }
  | call k c h ks =>
      obtain ⟨i, i', rfl, heq, hc⟩ := hs.call_course c
      rw [heq]
      exact hw.call hs hc
  | trans before _ ih₁ ih₂ => exact ih₂ (before.served hs).1 (ih₁ hs hw)

end Hook

end HotPatch
