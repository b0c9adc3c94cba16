import HotPatch.Proofs.Matched.Basic
import HotPatch.Proofs.Setting.Group

/-!
# Writes of settings keep their length

The write of a setting covers as many bytes as the width of its binding has, whatever values it held
since and wherever it has moved.
-/

namespace HotPatch

open Host

theorem Host.Told.exact {h h' : Host} (t : Told h h') : Exact h h' := by
  obtain ⟨_, _, rfl⟩ := t
  exact .aside rfl rfl rfl

namespace Setting

variable {x : Setting} {xs done : List Setting} {b : Binding} {bytes : List UInt8} {s : Site}

/-- The write in memory is as long as the width of the binding. -/
def Matched (x : Setting) : Prop :=
  ∀ r, x.live = some r → ∃ b, x.binding = some b ∧ r.after.length = b.width.length

theorem matched_of_live_eq_none (hx : x.live = none) : x.Matched := by
  intro r hr
  rw [hx] at hr
  cases hr

/-- Only the binding and the write in memory count. -/
theorem Matched.congr {y : Setting} (hx : x.Matched) (hbinding : y.binding = x.binding)
    (hlive : y.live = x.live) : y.Matched := by
  intro r hr
  rw [hbinding]
  exact hx r (hlive ▸ hr)

theorem matched_of_written (hbinding : x.binding = some b) {r : UndoRecord}
    (hlength : r.after.length = b.width.length) :
    ({ x with live := some r } : Setting).Matched := by
  rintro _ ⟨⟩
  exact ⟨b, hbinding, hlength⟩

/-- A write at its own place is as long as the one that it replaces, since both are as long as the
binding is wide. -/
theorem writeAt_exact (hx : x.Matched) (hbinding : x.binding = some b)
    (hlength : bytes.length = b.width.length) (a : Address) (h : Host) :
    (x.writeAt a bytes h).2.1.Matched ∧ Exact h (x.writeAt a bytes h).2.2 := by
  have hmade {r : UndoRecord} {h h' : Host} (hmake : UndoRecord.make a bytes h = (.ok r, h')) :
      ({ x with live := some r } : Setting).Matched := by
    refine matched_of_written hbinding ?_
    rw [(UndoRecord.make_eq_ok hmake).2, hlength]
  unfold writeAt
  cases hlive : x.live with
  | none =>
      have hfirst := UndoRecord.make_exact a bytes h
      rcases hmake : UndoRecord.make a bytes h with ⟨e | r, h₁⟩
      · rw [hmake] at hfirst
        exact ⟨hx, hfirst⟩
      · rw [hmake] at hfirst
        exact ⟨hmade hmake, hfirst⟩
  | some old =>
      obtain ⟨b', hbinding', hlength'⟩ := hx old hlive
      cases hbinding.symm.trans hbinding'
      have hsame : old.after.length = bytes.length := hlength'.trans hlength.symm
      dsimp only
      split
      · have hagain := UndoRecord.retarget_exact hsame h
        rcases old.retarget_cases bytes h with ⟨e, -, heq⟩ | ⟨hsame, -, heq⟩
        · rw [heq] at hagain ⊢
          exact ⟨hx, hagain⟩
        · rw [heq] at hagain ⊢
          exact ⟨matched_of_written hbinding hlength, hagain⟩
      · have hback := old.restore_exact h
        generalize old.restore h = restored at hback
        obtain ⟨_ | u, h₁⟩ := restored
        · exact ⟨hx, hback⟩
        · have hnext := UndoRecord.make_exact a bytes h₁
          dsimp only
          rcases hmake : UndoRecord.make a bytes h₁ with ⟨e | r, h₂⟩
          · rw [hmake] at hnext
            exact ⟨matched_of_live_eq_none rfl, hback.trans hnext⟩
          · rw [hmake] at hnext
            exact ⟨hmade hmake, hback.trans hnext⟩

/-- The new value is as long as the old one, as both are as long as the binding is wide. -/
theorem writeLive_exact (hx : x.Matched) (s : Site) :
    (x.writeLive s).2.1.Matched ∧ Exact s.host (x.writeLive s).2.2.host := by
  unfold writeLive
  cases hbinding : x.binding with
  | none => exact ⟨hx, .refl _⟩
  | some b =>
      have hlocate := (locate_told b s).exact
      dsimp only
      generalize b.locate s = located at hlocate
      obtain ⟨_ | a, s₁⟩ := located
      · refine ⟨hx.congr hbinding.symm rfl, ?_⟩
        dsimp only
        split
        · exact hlocate
        · exact hlocate.noted ..
      · have hwrite := writeAt_exact hx hbinding (b.width.length_encode x.value) a s₁.host
        dsimp only
        generalize x.writeAt a (b.width.encode x.value) s₁.host = written at hwrite
        obtain ⟨_ | u, y, h₁⟩ := written
        · exact ⟨hwrite.1, hlocate.trans hwrite.2⟩
        · exact ⟨hwrite.1.congr rfl rfl, hlocate.trans (hwrite.2.noted ..)⟩

theorem restoreLive_exact (hx : x.Matched) (h : Host) :
    (x.restoreLive h).2.1.Matched ∧ Exact h (x.restoreLive h).2.2 := by
  unfold restoreLive
  cases hlive : x.live with
  | none => exact ⟨hx.congr rfl hlive.symm, .refl h⟩
  | some r =>
      have hback := r.restore_exact h
      dsimp only
      generalize r.restore h = restored at hback
      obtain ⟨_ | u, h₁⟩ := restored
      · exact ⟨hx.congr rfl hlive.symm, hback⟩
      · exact ⟨matched_of_live_eq_none rfl, hback⟩

/-! ## Several settings -/

theorem writeAll_exact (hxs : ∀ x ∈ xs, x.Matched) (s : Site) :
    (∀ x ∈ (writeAll xs s).2.1, x.Matched) ∧ Exact s.host (writeAll xs s).2.2.host := by
  induction xs generalizing s with
  | nil => exact ⟨hxs, .refl _⟩
  | cons x xs ih =>
      obtain ⟨hx, hrest⟩ := List.forall_mem_cons.mp hxs
      have hwrite := writeLive_exact hx s
      unfold writeAll
      generalize x.writeLive s = written at hwrite
      obtain ⟨_ | r, x', s₁⟩ := written
      · exact ⟨List.forall_mem_cons.mpr ⟨hwrite.1, hrest⟩, hwrite.2⟩
      · obtain ⟨hall, hexact⟩ := ih hrest s₁
        exact ⟨List.forall_mem_cons.mpr ⟨hwrite.1, hall⟩, hwrite.2.trans hexact⟩

theorem writeAgain_exact (hxs : ∀ x ∈ xs, x.Matched) (s : Site) :
    (∀ x ∈ (writeAgain xs s).1, x.Matched) ∧ Exact s.host (writeAgain xs s).2.host := by
  induction xs generalizing s with
  | nil => exact ⟨hxs, .refl _⟩
  | cons x xs ih =>
      obtain ⟨hx, hrest⟩ := List.forall_mem_cons.mp hxs
      have hwrite := writeLive_exact hx s
      unfold writeAgain
      generalize x.writeLive s = written at hwrite
      obtain ⟨e | r, x', s₁⟩ := written
      · obtain ⟨hall, hexact⟩ := ih hrest
          (s₁.note .error ("Failed to rewrite setting `" ++ x'.name ++ "`: " ++ e.message))
        exact ⟨List.forall_mem_cons.mpr ⟨hwrite.1, hall⟩, (hwrite.2.noted ..).trans hexact⟩
      · obtain ⟨hall, hexact⟩ := ih hrest s₁
        exact ⟨List.forall_mem_cons.mpr ⟨hwrite.1, hall⟩, hwrite.2.trans hexact⟩

theorem restoreEach_exact (hdone : ∀ x ∈ done, x.Matched) (hxs : ∀ x ∈ xs, x.Matched) (s : Site) :
    (∀ x ∈ (restoreEach done xs s).2.1, x.Matched) ∧
      Exact s.host (restoreEach done xs s).2.2.host := by
  have hback {done : List Setting} (hdone : ∀ x ∈ done, x.Matched) :
      ∀ x ∈ done.reverse, x.Matched := fun x hx ↦ hdone x (List.mem_reverse.mp hx)
  induction xs generalizing done s with
  | nil => exact ⟨hback hdone, .refl _⟩
  | cons x xs ih =>
      obtain ⟨hx, hrest⟩ := List.forall_mem_cons.mp hxs
      have hrestore := restoreLive_exact hx s.host
      unfold restoreEach
      generalize x.restoreLive s.host = restored at hrestore
      obtain ⟨_ | u, x', h₁⟩ := restored
      · obtain ⟨hagain, hexact⟩ := writeAgain_exact (hback hdone) { s with host := h₁ }
        exact ⟨List.forall_mem_append.mpr ⟨hagain, List.forall_mem_cons.mpr ⟨hrestore.1, hrest⟩⟩,
          hrestore.2.trans hexact⟩
      · obtain ⟨hall, hexact⟩ := ih (List.forall_mem_cons.mpr ⟨hrestore.1, hdone⟩) hrest
          { s with host := h₁ }
        exact ⟨hall, hrestore.2.trans hexact⟩

theorem restoreAll_exact (hxs : ∀ x ∈ xs, x.Matched) (s : Site) :
    (∀ x ∈ (restoreAll xs s).2.1, x.Matched) ∧ Exact s.host (restoreAll xs s).2.2.host :=
  restoreEach_exact (List.forall_mem_nil _) hxs s

theorem writePending_exact (patch : String) (hxs : ∀ x ∈ xs, x.Matched) (s : Site) :
    (∀ x ∈ (writePending patch xs s).1, x.Matched) ∧
      Exact s.host (writePending patch xs s).2.host := by
  induction xs generalizing s with
  | nil => exact ⟨hxs, .refl _⟩
  | cons x xs ih =>
      obtain ⟨hx, hrest⟩ := List.forall_mem_cons.mp hxs
      unfold writePending
      split
      · have hwrite := writeLive_exact hx s
        generalize x.writeLive s = written at hwrite
        obtain ⟨e | r, x', s₁⟩ := written
        · obtain ⟨hall, hexact⟩ := ih hrest
            (s₁.note .warn ("Deferred setting of " ++ patch ++ ": " ++ e.message))
          exact ⟨List.forall_mem_cons.mpr ⟨hwrite.1, hall⟩, (hwrite.2.noted ..).trans hexact⟩
        · obtain ⟨hall, hexact⟩ := ih hrest s₁
          exact ⟨List.forall_mem_cons.mpr ⟨hwrite.1, hall⟩, hwrite.2.trans hexact⟩
      · obtain ⟨hall, hexact⟩ := ih hrest s
        exact ⟨List.forall_mem_cons.mpr ⟨hx, hall⟩, hexact⟩

/-! ## Giving a setting a value -/

theorem Matched.assign {y : Setting} {v : Value} (hx : x.Matched) (hassign : x.assign v = .ok y) :
    y.Matched := by
  unfold Setting.assign at hassign
  split at hassign
  · cases hassign
    exact hx.congr rfl rfl
  · cases hassign

theorem change_exact (hx : x.Matched) (v : Value) (live : Bool) (s : Site) :
    (change x v live s).2.1.Matched ∧ Exact s.host (change x v live s).2.2.host := by
  unfold change
  split
  · exact ⟨hx, .refl _⟩
  · rename_i y hassign
    have hy := hx.assign hassign
    split
    · have hwrite := writeLive_exact hy s
      generalize y.writeLive s = written at hwrite
      obtain ⟨_ | r, z, s₁⟩ := written
      · dsimp only
        split
        · rename_i hback
          exact ⟨hwrite.1.assign hback, hwrite.2⟩
        · exact hwrite
      · exact hwrite
    · exact ⟨hy, .refl _⟩

theorem changeFirst_exact (name : String) (v : Value) (live : Bool) (hxs : ∀ x ∈ xs, x.Matched)
    (s : Site) :
    (∀ x ∈ (changeFirst name v live xs s).2.1, x.Matched) ∧
      Exact s.host (changeFirst name v live xs s).2.2.host := by
  induction xs generalizing s with
  | nil => exact ⟨hxs, .refl _⟩
  | cons x xs ih =>
      obtain ⟨hx, hrest⟩ := List.forall_mem_cons.mp hxs
      unfold changeFirst
      split
      · obtain ⟨hchanged, hexact⟩ := change_exact hx v live s
        exact ⟨List.forall_mem_cons.mpr ⟨hchanged, hrest⟩, hexact⟩
      · obtain ⟨hall, hexact⟩ := ih hrest s
        exact ⟨List.forall_mem_cons.mpr ⟨hx, hall⟩, hexact⟩

end Setting

end HotPatch
