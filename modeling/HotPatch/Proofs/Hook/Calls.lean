import HotPatch.Proofs.Hook.Batch

/-!
# Batches only call their hooks

Whatever a batch does is a row of calls to single hooks with reports in between. What each call
keeps, among hooks that have no part in it, is therefore kept by whole batches, whichever of the
calls fail and whatever is taken back then.
-/

namespace HotPatch

namespace Hook

/-- Calls to single hooks and reports lead from `h` to `h'`, and the hooks from `ks` to `ks'`, in
whatever order they are listed. -/
inductive Calls : Host → List Hook → Host → List Hook → Prop
  | perm {h : Host} {ks ks' : List Hook} (hperm : ks.Perm ks') : Calls h ks h ks'
  | note (h : Host) (ks : List Hook) (level : LogLevel) (message : String) :
      Calls h ks (h.note level message) ks
  | call (k : Hook) (c : HookCall) (h : Host) (ks : List Hook) :
      Calls h (k :: ks) (k.call c h).2.2 ((k.call c h).2.1 :: ks)
  | trans {h h₁ h' : Host} {ks ks₁ ks' : List Hook} (before : Calls h ks h₁ ks₁)
      (after : Calls h₁ ks₁ h' ks') : Calls h ks h' ks'

namespace Calls

variable {h h₁ h' : Host} {k k' : Hook} {ks ks' ls ls' : List Hook}

theorem refl (h : Host) (ks : List Hook) : Calls h ks h ks := .perm (.refl ks)

theorem reorder (a : Calls h ks h' ks') (hbefore : ls.Perm ks) (hafter : ks'.Perm ls') :
    Calls h ls h' ls' := ((Calls.perm hbefore).trans a).trans (.perm hafter)

/-- The other hooks stay as they are. -/
theorem frame (a : Calls h ks h' ks') (ls : List Hook) : Calls h (ks ++ ls) h' (ks' ++ ls) := by
  induction a with
  | perm hperm => exact .perm (hperm.append_right ls)
  | note h ks level message => exact .note h (ks ++ ls) level message
  | call k c h ks => exact .call k c h (ks ++ ls)
  | trans _ _ ih₁ ih₂ => exact ih₁.trans ih₂

theorem frame_left (a : Calls h ks h' ks') (ls : List Hook) : Calls h (ls ++ ks) h' (ls ++ ks') :=
  (a.frame ls).reorder List.perm_append_comm List.perm_append_comm

/-- The hook in front changes, then those behind it. -/
theorem cons (a : Calls h [k] h₁ [k']) (b : Calls h₁ ks h' ks') :
    Calls h (k :: ks) h' (k' :: ks') := (a.frame ks).trans (b.frame_left [k'])

theorem noted (a : Calls h ks h' ks') (level : LogLevel) (message : String) :
    Calls h ks (h'.note level message) ks' := a.trans (.note h' ks' level message)

end Calls

theorem detachLast_calls (k : Hook) (h : Host) :
    Calls h [k] (k.detachLast h).2 [(k.detachLast h).1] := by
  have hcall : Calls h [k] (k.detach h).2.2 [(k.detach h).2.1] := .call k .detach h []
  unfold detachLast
  split
  · split
    · rename_i heq
      rw [heq] at hcall
      exact hcall
    · rename_i heq
      rw [heq] at hcall
      exact hcall.noted ..
  · exact .refl h [k]

end Hook

open Hook

/-! ## Calling one after the other -/

namespace Sweep

theorem unwind_calls (undo : HookCall) (done : List Numbered) (h : Host) :
    Calls h (done.map Prod.snd) (unwind undo done h).2.2 ((unwind undo done h).1.map Prod.snd) := by
  induction done generalizing h with
  | nil => exact .refl h []
  | cons p done ih =>
      obtain ⟨index, k⟩ := p
      have hcall := Calls.call k undo h []
      unfold unwind
      generalize k.call undo h = called at hcall
      obtain ⟨r, k', h₁⟩ := called
      have hall := hcall.cons (ih h₁)
      dsimp only
      split
      · exact hall
      · exact hall

/-- A sweep over the hooks of a batch comes down to single calls and reports, also where it turns
back. -/
theorem run_calls (call undo : HookCall) (done rest : List Numbered) (h : Host) :
    Calls h ((done ++ rest).map Prod.snd) (run call undo done rest h).2
      ((run call undo done rest h).1.hooks.map Prod.snd) := by
  induction rest generalizing done h with
  | nil =>
      refine .perm ?_
      rw [List.append_nil]
      exact (List.reverse_perm done).symm.map _
  | cons p rest ih =>
      obtain ⟨index, k⟩ := p
      have hcall := Calls.call k call h ((done ++ rest).map Prod.snd)
      unfold run
      generalize k.call call h = called at hcall
      obtain ⟨r, k', h₁⟩ := called
      -- the hook at hand stands in front of the others while it is called
      have hmoved (k : Hook) : ((done ++ (index, k) :: rest).map Prod.snd).Perm
          (k :: (done ++ rest).map Prod.snd) := List.perm_middle.map Prod.snd
      have hnow : Calls h ((done ++ (index, k) :: rest).map Prod.snd) h₁
          ((done ++ (index, k') :: rest).map Prod.snd) :=
        hcall.reorder (hmoved k) (hmoved k').symm
      cases r with
      | ok u =>
          have hrest := ih ((index, k') :: done) h₁
          refine hnow.trans (hrest.reorder ?_ (.refl _))
          exact List.perm_middle.map Prod.snd
      | error e =>
          have hback := (unwind_calls undo done h₁).frame (((index, k') :: rest).map Prod.snd)
          refine hnow.trans (hback.reorder ?_ ?_)
          · rw [List.map_append]
          · dsimp only
            rw [List.map_append]
            exact ((List.reverse_perm _).symm.map _).append_right _

end Sweep

namespace Batch

theorem prepareFrom_calls (index : Nat) (ks : List Hook) (h : Host) :
    Calls h ks (prepareFrom index ks h).2.2 (prepareFrom index ks h).2.1 := by
  induction ks generalizing index h with
  | nil => exact .refl h []
  | cons k ks ih =>
      have hcall : Calls h [k] (k.prepare h).2.2 [(k.prepare h).2.1] := .call k .prepare h []
      unfold prepareFrom
      generalize k.prepare h = called at hcall
      obtain ⟨r, k', h₁⟩ := called
      cases r with
      | error e => exact hcall.frame ks
      | ok u => exact hcall.cons (ih (index + 1) h₁)

theorem reportMismatch_calls (e : HookError) (h : Host) (ks : List Hook) :
    Calls h ks (reportMismatch e h) ks := by
  unfold reportMismatch
  split
  · split
    · exact .note ..
    · exact .note ..
  · exact .refl h ks

theorem reportStuck_calls (stuck : HookFailure) (cause : String) (h : Host) (ks : List Hook) :
    Calls h ks (reportStuck stuck cause h).2 ks :=
  (Calls.note h ks ..).trans (reportMismatch_calls stuck.source _ ks)

/-- The hooks of a batch are called in some order, then what went wrong is reported. -/
theorem swept_calls {call undo : HookCall} {ks ks' : List Hook} {called : List Numbered}
    {sweep : Sweep} {h h₁ h' : Host} (hrun : Sweep.run call undo [] called h = (sweep, h₁))
    (hks : ks.Perm (called.map Prod.snd)) (hks' : (sweep.hooks.map Prod.snd).Perm ks')
    (hreport : Calls h₁ ks' h' ks') : Calls h ks h' ks' := by
  have hswept := Sweep.run_calls call undo [] called h
  rw [hrun] at hswept
  exact (hswept.reorder hks hks').trans hreport

theorem attach_calls (b : Batch) (h : Host) :
    Calls h b.hooks (b.attach h).2.2 (b.attach h).2.1.hooks := by
  have hprepare := prepareFrom_calls 0 b.hooks h
  unfold attach
  split
  · exact .refl h b.hooks
  · generalize prepareFrom 0 b.hooks h = prepared at hprepare
    obtain ⟨_ | f, hooks, h₁⟩ := prepared
    · have hnumber : hooks.Perm ((number 0 hooks).map Prod.snd) := by rw [map_number]
      dsimp only
      cases hrun : Sweep.run .attach .detach [] (number 0 hooks) h₁ with
      | mk sweep h₂ =>
          obtain ⟨swept, _ | f, stuck⟩ := sweep
          · exact hprepare.trans (swept_calls hrun hnumber (.refl _) (.note ..))
          · have hreport := reportMismatch_calls f.source h₂ (swept.map Prod.snd)
            cases stuck with
            | none => exact hprepare.trans (swept_calls hrun hnumber (.refl _) hreport)
            | some s =>
                have hnoted := hreport.noted .error
                  ("Hook `" ++ f.name ++ "` failed to attach: " ++ f.source.message)
                exact hprepare.trans (swept_calls hrun hnumber (.refl _)
                  (hnoted.trans (reportStuck_calls s f.name _ _)))
    · exact hprepare

theorem detach_calls (b : Batch) (h : Host) :
    Calls h b.hooks (b.detach h).2.2 (b.detach h).2.1.hooks := by
  unfold detach
  split
  · have hnumber : b.hooks.Perm ((number 0 b.hooks).reverse.map Prod.snd) := by
      rw [List.map_reverse, map_number]
      exact (List.reverse_perm _).symm
    cases hrun : Sweep.run .detach .attach [] (number 0 b.hooks).reverse h with
    | mk sweep h₁ =>
        obtain ⟨swept, failure, stuck⟩ := sweep
        have hswept : (swept.map Prod.snd).Perm (swept.reverse.map Prod.snd) :=
          (List.reverse_perm swept).symm.map _
        cases failure with
        | none => exact swept_calls hrun hnumber hswept (.note ..)
        | some f =>
            have hreport := reportMismatch_calls f.source h₁ (swept.reverse.map Prod.snd)
            cases stuck with
            | none => exact swept_calls hrun hnumber hswept hreport
            | some s =>
                have hnoted := hreport.noted .error
                  ("Hook `" ++ f.name ++ "` failed to detach: " ++ f.source.message)
                exact swept_calls hrun hnumber hswept
                  (hnoted.trans (reportStuck_calls s f.name _ _))
  · exact .refl h b.hooks

end Batch

end HotPatch
