import HotPatch.Proofs.Hook.Batch
import HotPatch.Proofs.Hook.Round

/-!
# Sweeps in rounds

A sweep is a round of calls up to the first that fails, and then a round that takes back those
before it.
-/

namespace HotPatch

open Hook List

namespace Sweep

/-- Every call is tried when calls are taken back, and the first failure is kept. -/
theorem unwind_cases (undo : HookCall) (done : List Numbered) (h : Host) :
    ∃ undone stuck, unwind undo done h =
        (undone, stuck, (callEach undo (done.map Prod.snd) h).host) ∧
      undone.map Prod.snd = (callEach undo (done.map Prod.snd) h).hooks ∧
      (stuck = none ∧ (callEach undo (done.map Prod.snd) h).Succeeds ∨
        ∃ i p e, done[i]? = some p ∧
          (callEach undo (done.map Prod.snd) h).FailsFirst i e ∧
          stuck = some ⟨p.1, p.2.name, e⟩) := by
  induction done generalizing h with
  | nil => exact ⟨[], none, rfl, rfl, .inl ⟨rfl, succeeds_nil⟩⟩
  | cons p done ih =>
      obtain ⟨index, k⟩ := p
      obtain ⟨undone, stuck, heq, hhooks, hends⟩ := ih (k.call undo h).2.2
      rcases hcall : k.call undo h with ⟨r, k', h'⟩
      rw [hcall] at heq hhooks hends
      have hname : k'.name = k.name := by
        rw [← name_call undo k h, hcall]
      rw [map_cons, callEach, hcall]
      cases r with
      | ok u =>
          refine ⟨(index, k') :: undone, stuck, by simp only [unwind, hcall, heq], ?_, ?_⟩
          · rw [map_cons, hhooks]
          · rcases hends with ⟨hnone, hsucceeds⟩ | ⟨i, p, e, hp, ⟨he, hbefore⟩, hsome⟩
            · exact .inl ⟨hnone, forall_mem_cons.mpr ⟨rfl, hsucceeds⟩⟩
            · refine .inr ⟨i + 1, p, e, hp, ⟨he, fun j hj ↦ ?_⟩, hsome⟩
              cases j with
              | zero => rfl
              | succ j => exact hbefore j (by omega)
      | error e =>
          refine ⟨(index, k') :: undone, some ⟨index, k.name, e⟩, ?_, ?_,
            .inr ⟨0, (index, k), e, rfl, ⟨rfl, fun j hj ↦ absurd hj (Nat.not_lt_zero j)⟩, rfl⟩⟩
          · simp only [unwind, hcall, heq, hname]
          · rw [map_cons, hhooks]

/-- A sweep goes through to the end, or it turns back at the first hook that fails and takes back
those before it. -/
theorem run_cases (call undo : HookCall) (done rest : List Numbered) (h : Host) :
    (callEach call (rest.map Prod.snd) h).Succeeds ∧
        (∃ swept : List Numbered, swept.map Prod.snd = (callEach call (rest.map Prod.snd) h).hooks ∧
          run call undo done rest h =
            (⟨done.reverse ++ swept, none, none⟩, (callEach call (rest.map Prod.snd) h).host)) ∨
      ∃ (front : List Numbered) (p : Numbered) (back : List Numbered) (e : HookError)
          (made : List Numbered), rest = front ++ p :: back ∧
        Breaks call (front.map Prod.snd) p.2 h e ∧ made.map Prod.fst = front.map Prod.fst ∧
        made.map Prod.snd = (callEach call (front.map Prod.snd) h).hooks ∧
        run call undo done rest h =
          let failed := callNext call (front.map Prod.snd) p.2 h
          let undone := unwind undo (made.reverse ++ done) failed.2.2
          (⟨undone.1.reverse ++ (p.1, failed.2.1) :: back, some ⟨p.1, p.2.name, e⟩, undone.2.1⟩,
            undone.2.2) := by
  induction rest generalizing done h with
  | nil => exact .inl ⟨succeeds_nil, [], rfl, by rw [append_nil]; rfl⟩
  | cons p rest ih =>
      obtain ⟨index, k⟩ := p
      rcases hcall : k.call call h with ⟨r, k', h'⟩
      have hname : k'.name = k.name := by
        rw [← name_call call k h, hcall]
      cases r with
      | error e =>
          refine .inr ⟨[], (index, k), rest, e, [], rfl, ⟨succeeds_nil, ?_⟩, rfl, rfl, ?_⟩
          · exact congrArg Prod.fst hcall
          · simp only [run, hcall, hname, callNext, callEach, map_nil, reverse_nil, nil_append]
      | ok u =>
          have hcons := callEach_cons hcall
          rcases ih ((index, k') :: done) h' with ⟨hsucceeds, swept, hhooks, heq⟩ |
            ⟨front, p, back, e, made, rfl, hbreaks, hfst, hsnd, heq⟩
          · refine .inl ⟨?_, (index, k') :: swept, ?_, ?_⟩
            · rw [map_cons, hcons]
              exact forall_mem_cons.mpr ⟨rfl, hsucceeds⟩
            · rw [map_cons, map_cons, hcons, hhooks]
            · rw [run, hcall, map_cons, hcons]
              simp only [heq, reverse_cons, append_assoc, singleton_append]
          · have hnext : callNext call (((index, k) :: front).map Prod.snd) p.2 h =
                callNext call (front.map Prod.snd) p.2 h' := callNext_cons hcall _
            refine .inr ⟨(index, k) :: front, p, back, e, (index, k') :: made, rfl, ⟨?_, ?_⟩, ?_,
              ?_, ?_⟩
            · rw [map_cons, hcons]
              exact forall_mem_cons.mpr ⟨rfl, hbreaks.succeeds⟩
            · rw [hnext]
              exact hbreaks.fails
            · rw [map_cons, map_cons, hfst]
            · rw [map_cons, map_cons, hcons, hsnd]
            · rw [run, hcall, hnext]
              simp only [heq, reverse_cons, append_assoc, singleton_append]

/-- A sweep ends after a round of successes, or after the round that takes back those before a
failure; then it is stuck if that round has a failure too. -/
theorem run_outcome (call undo : HookCall) (rest : List Numbered) (h : Host) :
    (callEach call (rest.map Prod.snd) h).Succeeds ∧
        (∃ swept : List Numbered, swept.map Prod.snd = (callEach call (rest.map Prod.snd) h).hooks ∧
          run call undo [] rest h =
            (⟨swept, none, none⟩, (callEach call (rest.map Prod.snd) h).host)) ∨
      ∃ (front : List Numbered) (p : Numbered) (back : List Numbered) (e : HookError)
          (swept : List Numbered) (stuck : Option HookFailure), rest = front ++ p :: back ∧
        Breaks call (front.map Prod.snd) p.2 h e ∧
        run call undo [] rest h = (⟨swept, some ⟨p.1, p.2.name, e⟩, stuck⟩,
          (takeBack call undo (front.map Prod.snd) p.2 h).host) ∧
        swept.map Prod.snd = (takeBack call undo (front.map Prod.snd) p.2 h).hooks.reverse ++
          (callNext call (front.map Prod.snd) p.2 h).2.1 :: back.map Prod.snd ∧
        (stuck = none ∧ (takeBack call undo (front.map Prod.snd) p.2 h).Succeeds ∨
          ∃ i q e', front.reverse[i]? = some q ∧
            (takeBack call undo (front.map Prod.snd) p.2 h).FailsFirst i e' ∧
            stuck = some ⟨q.1, q.2.name, e'⟩) := by
  rcases run_cases call undo [] rest h with
    hdone | ⟨front, p, back, e, made, hsplit, hbreaks, hfst, hsnd, heq⟩
  · exact .inl hdone
  · obtain ⟨undone, stuck, hunwind, hhooks, hends⟩ := unwind_cases undo made.reverse
      (callNext call (front.map Prod.snd) p.2 h).2.2
    have hback : callEach undo (made.reverse.map Prod.snd)
        (callNext call (front.map Prod.snd) p.2 h).2.2 =
          takeBack call undo (front.map Prod.snd) p.2 h := by
      rw [map_reverse, hsnd, takeBack]
    rw [hback] at hunwind hhooks hends
    refine .inr ⟨front, p, back, e,
      undone.reverse ++ (p.1, (callNext call (front.map Prod.snd) p.2 h).2.1) :: back, stuck,
      hsplit,
      hbreaks, ?_, ?_, ?_⟩
    · rw [heq, append_nil]
      simp only [hunwind]
    · rw [map_append, map_reverse, hhooks, map_cons]
    · rcases hends with hnone | ⟨i, q, e', hq, hfails, hsome⟩
      · exact .inl hnone
      · -- the hook kept its number and its name when it was called
        have hnumber : (front.reverse.map Prod.fst)[i]? = some q.1 := by
          rw [map_reverse, ← hfst, ← map_reverse, getElem?_map, hq]
          rfl
        have hname : (front.reverse.map (·.2.name))[i]? = some q.2.name := by
          have hnames : front.map (·.2.name) = made.map (·.2.name) := by
            have hsame := names_callEach call (front.map Prod.snd) h
            rw [← hsnd, map_map, map_map] at hsame
            exact hsame.symm
          rw [map_reverse, hnames, ← map_reverse, getElem?_map, hq]
          rfl
        rw [getElem?_map] at hnumber hname
        obtain ⟨q', hq', hfst'⟩ := Option.map_eq_some_iff.mp hnumber
        rw [hq', Option.map_some] at hname
        refine .inr ⟨i, q', e', hq', hfails, ?_⟩
        rw [hsome, hfst', show q'.2.name = q.2.name from Option.some.inj hname]

end Sweep

end HotPatch
