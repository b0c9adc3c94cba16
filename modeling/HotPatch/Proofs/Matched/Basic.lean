import HotPatch.Patch.Change
import HotPatch.Proofs.Hook.Calls
import HotPatch.Proofs.Transaction.Basic

/-!
# Writes find as many bytes as they put

A record has as many bytes on one side as on the other, and what replaces one of its sides later has
the length of that side. So each write over expected bytes has as many of them as it puts in their
place, whether it is made, undone or made again, by transactions and by hooks, and the assertion
that it has never fails.
-/

namespace HotPatch

open Host

variable {h h' : Host}

namespace Host

/-- The host gets from one state to another by writes that put as many bytes as they expect to find.
Nothing else changes a byte, except that executable memory is mapped and filled and that the host
writes to its own memory, and no assertion fails. -/
inductive Exact : Host → Host → Prop
  | aside {h h' : Host} (hbyte : h'.memory.byte = h.memory.byte)
      (hown : h'.ownWrites = h.ownWrites) (huneven : h'.uneven = h.uneven) : Exact h h'
  | write (h : Host) (a : Address) {expected new : List UInt8}
      (hlength : expected.length = new.length) : Exact h (h.write a expected new).2
  | writeQuietly (h : Host) (a : Address) {expected new : List UInt8}
      (hlength : expected.length = new.length) : Exact h (h.writeQuietly a expected new).2
  | allocate (h : Host) (origin : Address) (size : Nat) : Exact h (h.allocate origin size).2
  | lend {h h₁ : Host} {origin : Address} {size : Nat} {slot : Trampoline.Slot} {bs : List UInt8}
      (hlent : h.allocate origin size = (some slot, h₁)) (hroom : bs.length ≤ slot.length) :
      Exact h (h₁.fill slot bs)
  | poke (h : Host) (a : Address) (bs : List UInt8) : Exact h (h.poke a bs)
  | trans {h h₁ h' : Host} (before : Exact h h₁) (after : Exact h₁ h') : Exact h h'

namespace Exact

theorem refl (h : Host) : Exact h h := .aside rfl rfl rfl

theorem note (h : Host) (level : LogLevel) (message : String) : Exact h (h.note level message) :=
  .aside rfl rfl rfl

theorem free (h : Host) (slot : Trampoline.Slot) : Exact h (h.free slot) := .aside rfl rfl rfl

theorem allocated {origin : Address} {size : Nat} {lent : Option Trampoline.Slot}
    (heq : h.allocate origin size = (lent, h')) : Exact h h' := by
  have hallocate := Exact.allocate h origin size
  rwa [heq] at hallocate

theorem noted (a : Exact h h') (level : LogLevel) (message : String) :
    Exact h (h'.note level message) := a.trans (.note ..)

/-- No assertion fails on the way. -/
theorem uneven_eq (a : Exact h h') : h'.uneven = h.uneven := by
  induction a with
  | aside _ _ huneven => exact huneven
  | write h a hlength => rw [uneven_write, if_pos hlength]
  | writeQuietly h a hlength => rw [uneven_writeQuietly, if_pos hlength]
  | allocate h origin size => exact uneven_allocate h origin size
  | @lend h _ origin size _ _ hlent _ =>
      have hkept := uneven_allocate h origin size
      rwa [hlent] at hkept
  | poke => rfl
  | trans _ _ ih₁ ih₂ => exact ih₂.trans ih₁

end Exact

end Host

/-! ## Records -/

namespace UndoRecord

variable {r : UndoRecord} {a : Address} {new : List UInt8}

theorem apply_exact (r : UndoRecord) (h : Host) : Exact h (r.apply h).2 :=
  .write h r.address r.length_eq

theorem restore_exact (r : UndoRecord) (h : Host) : Exact h (r.restore h).2 :=
  r.inverse.apply_exact h

theorem applyQuietly_exact (r : UndoRecord) (h : Host) : Exact h (r.applyQuietly h).2 :=
  .writeQuietly h r.address r.length_eq

theorem restoreQuietly_exact (r : UndoRecord) (h : Host) : Exact h (r.restoreQuietly h).2 :=
  r.inverse.applyQuietly_exact h

theorem make_exact (a : Address) (new : List UInt8) (h : Host) : Exact h (make a new h).2 := by
  unfold make
  cases capture h.memory a new with
  | error e => exact .refl h
  | ok r =>
      have happly := r.apply_exact h
      dsimp only
      generalize r.apply h = applied at happly
      obtain ⟨_ | u, h₁⟩ := applied
      · exact happly
      · exact happly

/-- Here the record does not tell that the write is even: it depends on what is written. -/
theorem retarget_exact (hlength : r.after.length = new.length) (h : Host) :
    Exact h (r.retarget new h).2 := by
  have hwrite := Exact.write h r.address hlength
  rcases hw : h.write r.address r.after new with ⟨e | u, h₁⟩
  · rw [hw] at hwrite
    rwa [retarget_of_error hw]
  · rw [hw] at hwrite
    rwa [retarget_of_ok hlength hw]

end UndoRecord

/-! ## Transactions -/

namespace Transaction

variable {rs done : List UndoRecord}

theorem push_exact (t : Transaction) (r : UndoRecord) (h : Host) : Exact h (t.push r h).2.2 := by
  have happly := r.apply_exact h
  unfold push
  generalize r.apply h = applied at happly
  obtain ⟨_ | u, h₁⟩ := applied
  · exact happly
  · exact happly.noted ..

theorem write_exact (t : Transaction) (a : Address) (new : List UInt8) (h : Host) :
    Exact h (t.write a new h).2.2 := by
  unfold write
  split
  · exact .refl h
  · exact t.push_exact _ h

theorem perform_exact (t : Transaction) (w : Write) (h : Host) : Exact h (t.perform w h).2.2 := by
  rcases t.perform_eq w h with ⟨e, heq⟩ | ⟨new, -, heq⟩
  · rw [heq]
    exact .refl h
  · rw [heq]
    exact t.write_exact w.address new h

/-- A write that is made again is even because its record is, whether it succeeds or not. -/
theorem redo_exact (rs : List UndoRecord) (h : Host) : Exact h (redo rs h) := by
  induction rs generalizing h with
  | nil => exact .refl h
  | cons r rs ih =>
      have happly := r.apply_exact h
      unfold redo
      generalize r.apply h = applied at happly
      obtain ⟨_ | u, h₁⟩ := applied
      · exact (happly.noted ..).trans (ih _)
      · exact happly.trans (ih h₁)

theorem undo_exact (rs : List UndoRecord) (h : Host) : Exact h (undo rs h) := by
  induction rs generalizing h with
  | nil => exact .refl h
  | cons r rs ih =>
      have hrestore := r.restore_exact h
      unfold undo
      generalize r.restore h = restored at hrestore
      obtain ⟨_ | u, h₁⟩ := restored
      · exact (hrestore.noted ..).trans (ih _)
      · exact hrestore.trans (ih h₁)

theorem restoreEach_exact (rs done : List UndoRecord) (h : Host) :
    Exact h (restoreEach rs done h).2 := by
  induction rs generalizing done h with
  | nil => exact .refl h
  | cons r rs ih =>
      have hrestore := r.restore_exact h
      unfold restoreEach
      generalize r.restore h = restored at hrestore
      obtain ⟨_ | u, h₁⟩ := restored
      · exact hrestore.trans (redo_exact done h₁)
      · exact hrestore.trans (ih _ h₁)

theorem applyEach_exact (rs done : List UndoRecord) (h : Host) :
    Exact h (applyEach rs done h).2 := by
  induction rs generalizing done h with
  | nil => exact .refl h
  | cons r rs ih =>
      have happly := r.apply_exact h
      unfold applyEach
      generalize r.apply h = applied at happly
      obtain ⟨_ | u, h₁⟩ := applied
      · exact happly.trans (undo_exact done h₁)
      · exact happly.trans (ih _ h₁)

theorem rollback_exact (t : Transaction) (h : Host) : Exact h (t.rollback h).2.2 := by
  have hrestore := restoreEach_exact t.records.reverse [] h
  unfold rollback
  split
  · exact .refl h
  · generalize restoreEach t.records.reverse [] h = restored at hrestore
    obtain ⟨_ | u, h₁⟩ := restored
    · exact hrestore
    · exact hrestore

theorem reapply_exact (t : Transaction) (h : Host) : Exact h (t.reapply h).2.2 := by
  have happly := applyEach_exact t.records [] h
  unfold reapply
  split
  · exact .refl h
  · generalize applyEach t.records [] h = applied at happly
    obtain ⟨_ | u, h₁⟩ := applied
    · exact happly
    · exact happly

theorem release_exact (t : Transaction) (h : Host) : Exact h (t.release h) := by
  have hback := t.rollback_exact h
  unfold release
  split
  · generalize t.rollback h = restored at hback
    obtain ⟨_ | u, t', h₁⟩ := restored
    · exact hback.noted ..
    · exact hback
  · exact .refl h

end Transaction

/-! ## Hooks -/

namespace SlotHook

theorem prepare_exact (k : SlotHook) (h : Host) : Exact h (k.prepare h).2.2 := by
  unfold prepare
  split
  · split
    · exact .refl h
    · exact .refl h
  · exact .refl h
  · exact .refl h

theorem attach_exact (k : SlotHook) (h : Host) : Exact h (k.attach h).2.2 := by
  obtain ⟨name, slot, detour, passage, stage⟩ := k
  cases stage with
  | fresh => exact .refl h
  | active r => exact .refl h
  | ready r =>
      have hpassage : Exact h (h.setPassage passage (ofLittleEndian r.before)) :=
        .aside rfl rfl rfl
      have happly := hpassage.trans (r.applyQuietly_exact _)
      unfold attach
      dsimp only
      generalize r.applyQuietly _ = applied at happly
      obtain ⟨_ | u, h₁⟩ := applied
      · exact happly
      · exact happly

theorem detach_exact (k : SlotHook) (h : Host) : Exact h (k.detach h).2.2 := by
  obtain ⟨name, slot, detour, passage, stage⟩ := k
  cases stage with
  | fresh => exact .refl h
  | ready r => exact .refl h
  | active r =>
      have hrestore := r.restoreQuietly_exact h
      unfold detach
      dsimp only
      generalize r.restoreQuietly h = restored at hrestore
      obtain ⟨_ | u, h₁⟩ := restored
      · exact hrestore
      · exact hrestore

end SlotHook

namespace InlineHook

variable {k : InlineHook}

/-- Filling a slot that was just lent. -/
theorem Filling.exact {block : List Code.Instruction} {origin : Address} {size : Nat}
    {slot : Trampoline.Slot} {h₁ : Host} {o : Except HookError Redirect × Host}
    (hf : k.Filling block slot h₁ o) (hlent : h.allocate origin size = (some slot, h₁)) :
    Exact h o.2 := by
  cases hf with
  | unwritten => exact .allocated hlent
  | unread hroom => exact .lend hlent hroom
  | filled _ hroom => exact .lend hlent hroom

theorem prepare_exact (k : InlineHook) (h : Host) : Exact h (k.prepare h).2.2 := by
  have hp := k.preparing h
  generalize k.prepare h = o at hp ⊢
  cases hp with
  | done => exact .refl h
  | unstolen => exact .refl h
  | unlent _ _ hnone => exact .allocated hnone
  | unfilled _ _ hlent hfill => exact (hfill.exact hlent).trans (.free ..)
  | prepared _ _ hlent hfill => exact (hfill.exact hlent).noted ..

theorem attach_exact (k : InlineHook) (h : Host) : Exact h (k.attach h).2.2 := by
  obtain ⟨name, target, detour, passage, stage⟩ := k
  cases stage with
  | fresh => exact .refl h
  | active work => exact .refl h
  | ready work =>
      have hpublish : Exact h (h.publish passage work.trampoline) := .aside rfl rfl rfl
      have happly := hpublish.trans (work.record.applyQuietly_exact _)
      unfold attach
      dsimp only
      generalize work.record.applyQuietly _ = applied at happly
      obtain ⟨_ | u, h₁⟩ := applied
      · exact happly.trans (.aside rfl rfl rfl)
      · exact happly

theorem detach_exact (k : InlineHook) (h : Host) : Exact h (k.detach h).2.2 := by
  obtain ⟨name, target, detour, passage, stage⟩ := k
  cases stage with
  | fresh => exact .refl h
  | ready work => exact .refl h
  | active work =>
      have hrestore := work.record.restoreQuietly_exact h
      unfold detach
      dsimp only
      generalize work.record.restoreQuietly h = restored at hrestore
      obtain ⟨_ | u, h₁⟩ := restored
      · exact hrestore
      · exact hrestore.trans (.aside rfl rfl rfl)

end InlineHook

theorem ScriptedHook.call_exact (k : ScriptedHook) (c : HookCall) (h : Host) :
    Exact h (k.call c h).2.2 := by
  have hend {h₁ : Host} (hfirst : Exact h h₁) (e : Event) : Exact h (h₁.report e) :=
    hfirst.trans (.aside rfl rfl rfl)
  rcases hpoke : (k.schedule c).poke with _ | ⟨a, bs⟩
  · simp only [call, hpoke]
    have hreport := hend (.refl h) (.hook k.name c ((k.schedule c).fails (k.schedule c).calls))
    split
    · exact hreport
    · cases c <;> exact hreport
  · simp only [call, hpoke]
    have hreport := hend (.poke h a bs)
      (.hook k.name c ((k.schedule c).fails (k.schedule c).calls))
    split
    · exact hreport
    · cases c <;> exact hreport

namespace Hook

variable {k : Hook} {ks ks' : List Hook}

theorem call_exact (k : Hook) (c : HookCall) (h : Host) : Exact h (k.call c h).2.2 := by
  cases k with
  | slot k =>
      cases c with
      | prepare => exact k.prepare_exact h
      | attach => exact k.attach_exact h
      | detach => exact k.detach_exact h
  | inline k =>
      cases c with
      | prepare => exact k.prepare_exact h
      | attach => exact k.attach_exact h
      | detach => exact k.detach_exact h
  | scripted k => exact k.call_exact c h

/-- However the hooks of a batch are called, only even writes are made. -/
theorem Calls.exact (a : Calls h ks h' ks') : Exact h h' := by
  induction a with
  | perm => exact .refl _
  | note h ks level message => exact .note h level message
  | call k c h ks => exact k.call_exact c h
  | trans _ _ ih₁ ih₂ => exact ih₁.trans ih₂

theorem ofPlan_exact (p : HookPlan) (h : Host) : Exact h (ofPlan p h).2 := by
  cases p with
  | slot name pointer detour passage => exact .refl h
  | inline name target detour passage => exact .aside rfl rfl rfl
  | scripted k => exact .refl h

theorem ofPlans_exact (ps : List HookPlan) (h : Host) : Exact h (ofPlans ps h).2 := by
  induction ps generalizing h with
  | nil => exact .refl h
  | cons p ps ih => exact (ofPlan_exact p h).trans (ih _)

theorem release_exact (k : Hook) (h : Host) : Exact h (k.release h) := by
  have hlast := (k.detachLast_calls h).exact
  cases k with
  | slot k => exact hlast
  | inline k =>
      unfold release
      generalize (Hook.inline k).detachLast h = last at hlast
      obtain ⟨k', h'⟩ := last
      cases k' with
      | slot k' => exact hlast
      | scripted k' => exact hlast
      | inline k' =>
          refine hlast.trans ?_
          dsimp only
          unfold InlineHook.discard
          split
          · split
            · exact .refl h'
            · exact .free ..
          · exact .refl h'
  | scripted k => exact .refl h

theorem releaseAll_exact (ks : List Hook) (h : Host) : Exact h (releaseAll ks h) := by
  induction ks generalizing h with
  | nil => exact .refl h
  | cons k ks ih => exact (k.release_exact h).trans (ih _)

end Hook

theorem Batch.release_exact (b : Batch) (h : Host) : Exact h (b.release h) := by
  have hdetach := (b.detach_calls h).exact
  unfold release
  generalize b.detach h = detached at hdetach
  obtain ⟨_ | u, b', h'⟩ := detached
  · exact (hdetach.noted ..).trans (Hook.releaseAll_exact b'.hooks _)
  · exact hdetach.trans (Hook.releaseAll_exact b'.hooks h')

/-! ## Changes -/

namespace Change

theorem revert_exact (c : Change) (h : Host) : Exact h (c.revert h).2.2 := by
  unfold revert
  cases c with
  | writes t =>
      have hback := t.rollback_exact h
      dsimp only
      generalize t.rollback h = restored at hback
      obtain ⟨_ | u, t', h'⟩ := restored
      · exact hback
      · exact hback
  | hooks b =>
      have hback := (b.detach_calls h).exact
      dsimp only
      generalize b.detach h = detached at hback
      obtain ⟨_ | u, b', h'⟩ := detached
      · exact hback
      · exact hback

theorem reapply_exact (c : Change) (h : Host) : Exact h (c.reapply h).2.2 := by
  unfold reapply
  cases c with
  | writes t =>
      have hagain := t.reapply_exact h
      dsimp only
      generalize t.reapply h = applied at hagain
      obtain ⟨_ | u, t', h'⟩ := applied
      · exact hagain
      · exact hagain
  | hooks b =>
      have hagain := (b.attach_calls h).exact
      dsimp only
      generalize b.attach h = attached at hagain
      obtain ⟨_ | u, b', h'⟩ := attached
      · exact hagain
      · exact hagain

theorem releaseAll_exact (cs : List Change) (h : Host) : Exact h (releaseAll cs h) := by
  induction cs generalizing h with
  | nil => exact .refl h
  | cons c cs ih =>
      refine Exact.trans ?_ (ih _)
      cases c with
      | writes t => exact t.release_exact h
      | hooks b => exact b.release_exact h

theorem reapplyEach_exact (cs : List Change) (h : Host) : Exact h (reapplyEach cs h).2 := by
  induction cs generalizing h with
  | nil => exact .refl h
  | cons c cs ih =>
      have hagain := c.reapply_exact h
      unfold reapplyEach
      generalize c.reapply h = applied at hagain
      obtain ⟨e | u, c', h₁⟩ := applied
      · exact (hagain.noted ..).trans (ih _)
      · exact hagain.trans (ih h₁)

theorem revertEach_exact (cs done : List Change) (h : Host) :
    Exact h (revertEach cs done h).2.2 := by
  induction cs generalizing done h with
  | nil => exact .refl h
  | cons c cs ih =>
      have hback := c.revert_exact h
      unfold revertEach
      generalize c.revert h = reverted at hback
      obtain ⟨_ | u, c', h₁⟩ := reverted
      · exact hback.trans (reapplyEach_exact done h₁)
      · exact hback.trans (ih _ h₁)

theorem revertAll_exact (cs : List Change) (h : Host) : Exact h (revertAll cs h).2.2 :=
  revertEach_exact _ [] h

end Change

end HotPatch
