import HotPatch.Proofs.Disjoint
import HotPatch.Proofs.Setting.Bounds

/-!
# One write in place of another

A setting that is written may move its write. What it leaves behind is memory as if it had been
written there in the first place, before the other settings or after them, as long as no two of
their writes overlap.
-/

namespace HotPatch

open Host

namespace Setting

variable {x y : Setting} {xs done front back : List Setting} {s : Site} {g m m₀ m₁ m' : Memory}

theorem records_append (xs ys : List Setting) :
    records (xs ++ ys) = records xs ++ records ys := List.filterMap_append

theorem perm_records_middle (x : Setting) (front back : List Setting) :
    (records (front ++ x :: back)).Perm (records (front ++ back) ++ x.live.toList) := by
  rw [records_append, records_cons, records_append, List.append_assoc]
  exact List.perm_append_comm.append_left (records front)

/-- A write that is taken back leaves memory as it was before. -/
theorem eq_of_taken_back {old : Option UndoRecord} (hw : Rewrites m₀ old.toList m)
    (hback : Rewrites m (old.toList.map UndoRecord.inverse) m₁) : m₁ = m₀ := by
  have hsame : old.toList.reverse = old.toList := by
    cases old with
    | none => rfl
    | some r => rfl
  have hu := hw.unwinds
  rw [Unwinds, hsame] at hu
  exact hback.unique hu

/-- Memory is what it would be if the write had been made in place of the old one. -/
theorem WriteCourse.rewrites {a : Address} {bytes : List UInt8} {old live : Option UndoRecord}
    {r : Except MemoryError Unit} (hc : WriteCourse a bytes m old r live m')
    (hw : Rewrites m₀ old.toList m) : Rewrites m₀ live.toList m' := by
  cases hc with
  | placed _ hback _ _ hfit =>
      rw [eq_of_taken_back hw hback] at hfit ⊢
      exact .single hfit
  | unplaced _ hback _ =>
      rw [eq_of_taken_back hw hback]
      exact .nil m₀
  | held => exact hw
  | kept => exact hw
  | @renewed r _ hlength _ =>
      cases hw with
      | cons hold hrest =>
          cases hrest
          have hnew : (r.withAfter bytes hlength).Fits m₀ := hold
          have hsame : (r.replacing bytes hlength).onto (r.onto m₀) =
              (r.withAfter bytes hlength).onto m₀ := Memory.store_store hlength
          rw [hsame]
          exact .single hnew

theorem LiveCourse.rewrites {r : Except SettingError Bool} (hc : LiveCourse x s r y m)
    (hw : Rewrites m₀ x.live.toList s.host.memory) : Rewrites m₀ y.live.toList m := by
  cases hc with
  | unbound => exact hw
  | adrift => exact hw
  | written _ _ hcourse => exact hcourse.rewrites hw
  | failed _ _ hcourse => exact hcourse.rewrites hw

/-- A setting among others is written as if it were the last. -/
theorem LiveCourse.rewrites_among {r : Except SettingError Bool} (hc : LiveCourse x s r y m)
    (hw : Rewrites g (records (front ++ x :: back)) s.host.memory)
    (hd : (records (front ++ x :: back)).Pairwise UndoRecord.Disjoint)
    (hd' : (records (front ++ y :: back)).Pairwise UndoRecord.Disjoint) :
    Rewrites g (records (front ++ y :: back)) m := by
  have hlast := hw.perm (perm_records_middle x front back) hd
  obtain ⟨m₀, hothers, hx⟩ := Rewrites.append_iff.mp hlast
  have hp := perm_records_middle y front back
  exact (hothers.append (hc.rewrites hx)).perm hp.symm (hd'.perm hp fun h ↦ h.symm)

/-- A setting can be given another value beneath the writes of those behind it, as they share no
byte. -/
theorem ChangeCourse.rewrites_among {v : Value} {live : Bool} {r : Except SettingError Value}
    (hc : ChangeCourse x v live s r y m)
    (hw : Rewrites g (records (front ++ x :: back)) s.host.memory)
    (hd : (records (front ++ x :: back)).Pairwise UndoRecord.Disjoint)
    (hd' : (records (front ++ y :: back)).Pairwise UndoRecord.Disjoint) :
    Rewrites g (records (front ++ y :: back)) m := by
  have hsame {z z' : Setting} (hlive : z'.live = z.live) :
      records (front ++ z' :: back) = records (front ++ z :: back) := by
    rw [records_append, records_append, records_cons, records_cons, hlive]
  cases hc with
  | mismatch => exact hw
  | @stored w =>
      have hnew : records (front ++ { x with value := w } :: back) =
          records (front ++ x :: back) := hsame rfl
      rw [hnew]
      exact hw
  | @written w _ _ _ _ _ hcourse =>
      have hold : records (front ++ { x with value := w } :: back) =
          records (front ++ x :: back) := hsame rfl
      rw [← hold] at hw hd
      exact hcourse.rewrites_among hw hd hd'
  | @failed w _ _ z _ _ _ hcourse =>
      have hold : records (front ++ { x with value := w } :: back) =
          records (front ++ x :: back) := hsame rfl
      have hnew : records (front ++ { z with value := (x.kind.clamp? x.value).getD w } :: back) =
          records (front ++ z :: back) := hsame rfl
      rw [← hold] at hw hd
      rw [hnew] at hd' ⊢
      exact hcourse.rewrites_among hw hd hd'

theorem ChangeCourse.live_eq {v : Value} {r : Except SettingError Value}
    (hc : ChangeCourse x v false s r y m) : y.live = x.live := by
  cases hc with
  | mismatch => rfl
  | stored => rfl
  | written _ hlive => cases hlive
  | failed _ hlive => cases hlive

/-- Settings that waited are written one after the other, `done` being those that had their turn.
At no time do two writes overlap. -/
theorem writePending_rewrites (patch : String) (done : List Setting)
    (hw : Rewrites g (records (done ++ xs)) s.host.memory)
    (hd : ∀ k, (records (done ++ ((writePending patch xs s).1.take k ++ xs.drop k))).Pairwise
      UndoRecord.Disjoint) :
    ∃ m, Rewrites g (records (done ++ (writePending patch xs s).1)) m ∧
      Quiet (s.host.withMemory m) (writePending patch xs s).2.host := by
  induction xs generalizing done s with
  | nil => exact ⟨s.host.memory, hw, .refl _⟩
  | cons x xs ih =>
      have hgo {z : Setting} {s₂ : Site}
          (heq : writePending patch (x :: xs) s =
            (z :: (writePending patch xs s₂).1, (writePending patch xs s₂).2)) (k : Nat) :
          (records (done ++ [z] ++ ((writePending patch xs s₂).1.take k ++ xs.drop k))).Pairwise
            UndoRecord.Disjoint := by
        have hk := hd (k + 1)
        rw [heq] at hk
        rw [List.append_assoc]
        exact hk
      by_cases hpending : x.pending = true
      · obtain ⟨r, y, s₁, m₁, hx, hcourse, hquiet⟩ := writeLive_course x s
        obtain ⟨s₂, hquiet', heq⟩ := writePending_cons patch hx hpending xs
        have hfirst : Rewrites g (records (done ++ y :: xs)) m₁ := by
          apply hcourse.rewrites_among hw
          · exact hd 0
          · have hone := hd 1
            rw [heq] at hone
            exact hone
        have hmoved : Quiet (s.host.withMemory m₁) s₂.host := hquiet.trans hquiet'
        have hmemory : s₂.host.memory = m₁ := hmoved.memory
        rw [List.append_cons, ← hmemory] at hfirst
        obtain ⟨m, hrest, hquiet''⟩ := ih (done ++ [y]) hfirst (hgo heq)
        rw [heq, List.append_cons]
        exact ⟨m, hrest, (hmoved.withMemory m).trans hquiet''⟩
      · have heq : writePending patch (x :: xs) s =
            (x :: (writePending patch xs s).1, (writePending patch xs s).2) := by
          rw [writePending, if_neg hpending]
        rw [List.append_cons] at hw
        obtain ⟨m, hrest, hquiet⟩ := ih (done ++ [x]) hw (hgo heq)
        rw [heq, List.append_cons]
        exact ⟨m, hrest, hquiet⟩

end Setting

end HotPatch
