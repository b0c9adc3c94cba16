import HotPatch.Proofs.Intact
import HotPatch.Setting.Group

/-!
# Settings written for the first time

Settings that are not in memory yet are written by applying one record for each, in order, until one
fails.
-/

namespace HotPatch

open Host

theorem Site.resolve_told (s : Site) (t : Target) : Told s.host (s.resolve t).2.host := by
  unfold Site.resolve Resolver.resolve
  split
  rename_i r resolver h heq
  simp only
  split at heq
  · cases heq
    exact .refl _
  · split at heq <;> cases heq
    · exact .note ..
    · exact .note ..
    · exact .refl _

theorem Site.resolve_quiet (s : Site) (t : Target) : Quiet s.host (s.resolve t).2.host :=
  (s.resolve_told t).quiet

namespace Setting

variable {x : Setting} {xs : List Setting} {s : Site} {m : Memory}

def records (xs : List Setting) : List UndoRecord := xs.filterMap (·.live)

def Unwritten (xs : List Setting) : Prop := ∀ x ∈ xs, x.live = none

theorem Unwritten.records_eq (hxs : Unwritten xs) : records xs = [] :=
  List.filterMap_eq_nil_iff.mpr hxs

theorem pairwise_records (hxs : xs.length ≤ 1) (R : UndoRecord → UndoRecord → Prop) :
    (records xs).Pairwise R := by
  have hlength : (records xs).length ≤ 1 := Nat.le_trans (List.length_filterMap_le _ xs) hxs
  match records xs, hlength with
  | [], _ => exact .nil
  | [r], _ => exact List.pairwise_singleton R r

theorem records_cons (x : Setting) (xs : List Setting) :
    records (x :: xs) = x.live.toList ++ records xs := by
  cases hx : x.live <;> simp [records, hx]

theorem locate_told (b : Binding) (s : Site) : Told s.host (b.locate s).2.host := by
  unfold Binding.locate
  split
  · exact .refl _
  · exact .refl _
  · rename_i t _
    have htold := s.resolve_told t
    split
    · rename_i heq
      rw [heq] at htold
      exact htold
    · rename_i heq
      rw [heq] at htold
      exact htold.trans (.note ..)

theorem locate_quiet (b : Binding) (s : Site) : Quiet s.host (b.locate s).2.host :=
  (locate_told b s).quiet

/-! ## Writing -/

/-- A setting that is not in memory is written by one record at most. -/
theorem writeLive_of_unwritten (hx : x.live = none) (s : Site) :
    ∃ r y s' m, x.writeLive s = (r, y, s') ∧ Rewrites s.host.memory y.live.toList m ∧
      Quiet (s.host.withMemory m) s'.host := by
  unfold writeLive
  split
  · exact ⟨_, x, s, s.host.memory, rfl, by rw [hx]; exact .nil _, .refl _⟩
  · rename_i b _
    have hlocate := locate_quiet b s
    split
    · rename_i s₁ heq
      rw [heq] at hlocate
      refine ⟨_, _, _, s.host.memory, rfl, by simp only [hx]; exact .nil _, ?_⟩
      split
      · exact hlocate
      · exact hlocate.trans (quiet_note ..)
    · rename_i a s₁ heq
      rw [heq] at hlocate
      rcases UndoRecord.make_cases a (b.width.encode x.value) s₁.host with
        ⟨-, e, hmake⟩ | ⟨r, -, -, hfit, hmake⟩
      · simp only [writeAt, hx, hmake]
        exact ⟨_, _, _, s.host.memory, rfl, by rw [hx]; exact .nil _, hlocate⟩
      · simp only [writeAt, hx, hmake]
        refine ⟨_, _, _, r.onto s.host.memory, rfl, .single (hlocate.memory ▸ hfit), ?_⟩
        have hmade : Quiet (s.host.withMemory (r.onto s.host.memory))
            (s₁.host.withMemory (r.onto s₁.host.memory)) :=
          hlocate.memory ▸ hlocate.withMemory (r.onto s₁.host.memory)
        exact hmade.trans (quiet_note ..)

/-- Settings that are not in memory are written by one record each, up to the one that fails. -/
theorem writeAll_of_unwritten (hxs : Unwritten xs) (s : Site) :
    ∃ r ys s' m, writeAll xs s = (r, ys, s') ∧ Rewrites s.host.memory (records ys) m ∧
      Quiet (s.host.withMemory m) s'.host := by
  induction xs generalizing s with
  | nil => exact ⟨_, [], s, s.host.memory, rfl, .nil _, .refl _⟩
  | cons x xs ih =>
      have hrest : Unwritten xs := fun y hy ↦ hxs y (List.mem_cons_of_mem x hy)
      obtain ⟨r, y, s₁, m₁, hwrite, hw, hquiet⟩ :=
        writeLive_of_unwritten (hxs x (List.mem_cons_self ..)) s
      cases r with
      | error e =>
          refine ⟨.error e, y :: xs, s₁, m₁, by rw [writeAll, hwrite], ?_, hquiet⟩
          rwa [records_cons, hrest.records_eq, List.append_nil]
      | ok b =>
          obtain ⟨r, ys, s₂, m₂, hwrites, hws, hquiet'⟩ := ih hrest s₁
          refine ⟨r, y :: ys, s₂, m₂, by rw [writeAll, hwrite]; simp only [hwrites], ?_,
            (hquiet.withMemory m₂).trans hquiet'⟩
          rw [hquiet.memory, memory_withMemory] at hws
          rw [records_cons]
          exact hw.append hws

/-! ## Restoring -/

def withdrawn (x : Setting) : Setting := { x with pending := false, live := none }

theorem unwritten_withdrawn (xs : List Setting) : Unwritten (xs.map withdrawn) := by
  intro y hy
  obtain ⟨x, -, rfl⟩ := List.mem_map.mp hy
  rfl

theorem restoreLive_of_unwritten {h : Host} (hx : x.live = none) :
    x.restoreLive h = (.ok (), x.withdrawn, h) := by
  simp only [restoreLive, withdrawn, hx]

theorem restoreLive_eq_ok {h : Host} {r : UndoRecord} (hx : x.live = some r)
    (hfit : r.inverse.Fits h.memory) :
    x.restoreLive h = (.ok (), x.withdrawn, h.withMemory (r.inverse.onto h.memory)) := by
  simp only [restoreLive, withdrawn, hx, UndoRecord.restore_eq, UndoRecord.apply_eq_ok hfit]

/-- If the writes can be taken back in the order of their settings, they are. -/
theorem restoreEach_eq_ok (hw : Rewrites s.host.memory ((records xs).map UndoRecord.inverse) m)
    (done : List Setting) :
    restoreEach done xs s =
      (.ok (), done.reverse ++ xs.map withdrawn, { s with host := s.host.withMemory m }) := by
  induction xs generalizing done s with
  | nil =>
      cases hw
      rw [List.map_nil, List.append_nil]
      rfl
  | cons x xs ih =>
      have hdone : done.reverse ++ (x :: xs).map withdrawn =
          (x.withdrawn :: done).reverse ++ xs.map withdrawn := by
        simp
      rw [records_cons] at hw
      rw [hdone]
      cases hx : x.live with
      | none =>
          rw [hx] at hw
          rw [restoreEach, restoreLive_of_unwritten hx]
          exact ih hw _
      | some r =>
          rw [hx] at hw
          cases hw with
          | cons hfit hrest =>
              rw [restoreEach, restoreLive_eq_ok hx hfit]
              exact ih (s := { s with host := s.host.withMemory (r.inverse.onto s.host.memory) })
                hrest _

theorem restoreAll_eq_ok (hw : Rewrites s.host.memory ((records xs).map UndoRecord.inverse) m) :
    restoreAll xs s = (.ok (), xs.map withdrawn, { s with host := s.host.withMemory m }) :=
  restoreEach_eq_ok hw []

theorem restoreLive_ok {y : Setting} {h h' : Host} (heq : x.restoreLive h = (.ok (), y, h')) :
    y = x.withdrawn := by
  unfold restoreLive at heq
  split at heq
  · rename_i hx
    cases heq
    rw [withdrawn, ← hx]
  · split at heq
    · cases heq
      rfl
    · cases heq

theorem restoreEach_ok {done ys : List Setting} {s' : Site}
    (heq : restoreEach done xs s = (.ok (), ys, s')) : ys = done.reverse ++ xs.map withdrawn := by
  induction xs generalizing done s with
  | nil =>
      cases heq
      rw [List.map_nil, List.append_nil]
  | cons x xs ih =>
      rw [restoreEach] at heq
      rcases hrestore : x.restoreLive s.host with ⟨r, y, h⟩
      rw [hrestore] at heq
      cases r with
      | error e => cases heq
      | ok u =>
          rw [ih heq, restoreLive_ok hrestore]
          simp

/-- Settings that are all restored are not in memory any more. -/
theorem restoreAll_ok {ys : List Setting} {s' : Site}
    (heq : restoreAll xs s = (.ok (), ys, s')) : ys = xs.map withdrawn :=
  restoreEach_ok heq

end Setting

end HotPatch
