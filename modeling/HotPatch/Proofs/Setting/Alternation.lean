import HotPatch.Proofs.InOrder
import HotPatch.Proofs.Setting.InStep
import Mathlib.Data.List.Basic

/-!
# Settings that share addresses

Settings are restored in the order in which they were written. What that takes can be told from the
settings and from memory as it was before any of them was written.
-/

namespace HotPatch

open Host

/-- Whether new bytes can be written depends on the pages alone. -/
theorem UndoRecord.make_ok_iff {a : Address} {new : List UInt8} {h : Host} :
    (UndoRecord.make a new h).1.toBool = true ↔ h.memory.Admits a new.length := by
  rcases make_cases a new h with ⟨hnot, e, hmake⟩ | ⟨r, rfl, rfl, hfit, hmake⟩
  · rw [hmake]
    exact iff_of_false nofun hnot
  · rw [hmake]
    exact iff_of_true rfl (r.length_eq ▸ hfit.admits)

namespace Setting

variable {x : Setting} {xs ys : List Setting} {s : Site} {m : Memory}

def byteAt? (x : Setting) (z : Address) : Option UInt8 :=
  match x.binding with
  | some ⟨.fixed a, w⟩ => if a ≤ z then (w.encode x.value)[z - a]? else none
  | _ => none

def bytesAt (xs : List Setting) (z : Address) : List UInt8 := xs.filterMap (·.byteAt? z)

/-- The bytes that settings have at an address alternate between the last of them and the one in
memory. -/
def Alternating (m : Memory) (xs : List Setting) : Prop :=
  ∀ z, Alternate ((bytesAt xs z).getLastD (m.byte z)) (m.byte z) (bytesAt xs z)

/-- Whether a setting is not bound to a fixed address or can be written there. -/
def writable (m : Memory) (x : Setting) : Bool :=
  match x.binding with
  | some ⟨.fixed a, w⟩ => (UndoRecord.make a (w.encode x.value) (.ofMemory m)).1.toBool
  | _ => true

/-! ## Bytes of settings and of their writes -/

theorem InStep.byteAt?_eq (hx : x.InStep true) (z : Address) :
    x.byteAt? z = x.live.bind (·.byteAt? z) := by
  cases hx with
  | unbound _ hbinding hlive => rw [byteAt?, hbinding, hlive]; rfl
  | @on _ b r _ hbinding hplace hafter hlive =>
      obtain ⟨place, w⟩ := b
      obtain rfl : place = .fixed r.address := hplace
      simp only [byteAt?, hbinding, hlive, Option.bind_some, UndoRecord.byteAt?, hafter]

theorem byteAt?_withdrawn (x : Setting) (z : Address) : x.withdrawn.byteAt? z = x.byteAt? z := rfl

theorem bound_of_byteAt? {z : Nat} {c : UInt8} (hz : x.byteAt? z = some c) :
    ∃ (a : Nat) (w : Width), x.binding = some ⟨.fixed a, w⟩ ∧ a ≤ z ∧ z < a + w.length := by
  unfold byteAt? at hz
  split at hz
  · rename_i a w hbinding
    split at hz
    · rename_i hle
      have hlt := (List.getElem?_eq_some_iff.mp hz).1
      rw [Width.length_encode] at hlt
      simp only [Address] at hle
      exact ⟨a, w, hbinding, hle, by omega⟩
    · cases hz
  · cases hz

/-- Settings that lie apart have at most one byte at an address between them. -/
theorem Apart.bytesAt_cases (hap : Apart xs) (z : Nat) :
    bytesAt xs z = [] ∨ ∃ c, bytesAt xs z = [c] := by
  rw [Apart, bindings, List.pairwise_filterMap] at hap
  induction xs with
  | nil => exact .inl rfl
  | cons x xs ih =>
      obtain ⟨hx, hrest⟩ := List.pairwise_cons.mp hap
      rw [bytesAt, List.filterMap_cons, ← bytesAt]
      cases hz : x.byteAt? z with
      | none => exact ih hrest
      | some c =>
          obtain ⟨a, w, hbinding, hle, hlt⟩ := bound_of_byteAt? hz
          have hnone : bytesAt xs z = [] := by
            refine List.filterMap_eq_nil_iff.mpr fun y hy ↦ ?_
            by_contra hsome
            obtain ⟨d, hd⟩ := Option.ne_none_iff_exists'.mp hsome
            obtain ⟨a', w', hbinding', hle', hlt'⟩ := bound_of_byteAt? hd
            have hapart := hx y hy _ hbinding _ hbinding' a a' rfl rfl
            simp only [Address] at hapart
            omega
          exact .inr ⟨c, congrArg (c :: ·) hnone⟩

theorem Apart.alternating (hap : Apart xs) (m : Memory) : Alternating m xs := by
  intro z
  rcases hap.bytesAt_cases z with hz | ⟨c, hz⟩
  · rw [hz]
    trivial
  · rw [hz]
    exact ⟨rfl, trivial⟩

/-! ## Which settings are written -/

/-- Whether a setting can be written is known from the protections beforehand. -/
theorem InStep.toBool_writeLive (hx : x.InStep false) (hpage : s.host.memory.page = m.page) :
    (x.writeLive s).1.toBool = x.writable m := by
  cases hx with
  | unbound _ hbinding _ =>
      rw [Setting.writeLive, hbinding, writable, hbinding]
      rfl
  | @off _ b a _ hbinding hplace hlive =>
      obtain ⟨place, w⟩ := b
      obtain rfl : place = .fixed a := hplace
      have hwrite : (x.writeLive s).1.toBool =
          (UndoRecord.make a (w.encode x.value) s.host).1.toBool := by
        simp only [Setting.writeLive, hbinding, Binding.locate, writeAt, hlive]
        rcases UndoRecord.make a (w.encode x.value) s.host with ⟨e | r, h⟩ <;> rfl
      have hadmits : s.host.memory.Admits a (w.encode x.value).length ↔
          m.Admits a (w.encode x.value).length := by
        constructor
        · exact fun h ↦ h.of_page_eq fun _ _ _ ↦ by rw [hpage]
        · exact fun h ↦ h.of_page_eq fun _ _ _ ↦ by rw [hpage]
      rw [hwrite, writable, hbinding, Bool.eq_iff_iff, UndoRecord.make_ok_iff,
        UndoRecord.make_ok_iff, hadmits]
      rfl

theorem writeLive_error {y : Setting} {s' : Site} {e : SettingError} (hx : x.live = none)
    (heq : x.writeLive s = (.error e, y, s')) : y = x := by
  unfold writeLive at heq
  split at heq
  · cases heq
  · split at heq
    · cases heq
    · simp only [writeAt, hx] at heq
      split at heq
      · rename_i hmake
        cases heq
        split at hmake
        · cases hmake
        · cases hmake
          rfl
      · cases heq

/-- Settings are written up to the first that cannot be. -/
theorem bytesAt_writeAll (hxs : ∀ x ∈ xs, x.InStep false) (hpage : s.host.memory.page = m.page)
    (z : Address) :
    HotPatch.bytesAt (records (writeAll xs s).2.1) z =
      bytesAt (xs.takeWhile (·.writable m)) z := by
  induction xs generalizing s with
  | nil => rfl
  | cons x xs ih =>
      obtain ⟨hx, hrest⟩ := List.forall_mem_cons.mp hxs
      have hwritable := hx.toBool_writeLive hpage
      obtain ⟨r, y, s₁, m₁, heq, hsame, -, hon, hw, hcalm⟩ := hx.writeLive s
      rw [heq] at hwritable
      rw [writeAll, heq]
      cases r with
      | error e =>
          have hnone : Unwritten (y :: xs) := by
            rw [writeLive_error hx.live_eq_none heq]
            exact fun q hq ↦ (hxs q hq).live_eq_none
          rw [List.takeWhile_cons_of_neg (by simp [← hwritable, Except.toBool]), hnone.records_eq]
          rfl
      | ok b =>
          have hpage₁ : s₁.host.memory.page = m.page := by
            rw [hcalm.memory]
            exact hw.page_eq.trans hpage
          have hbyte := (hon b rfl).byteAt?_eq z
          rw [← byteAt?_withdrawn, hsame] at hbyte
          rw [List.takeWhile_cons_of_pos hwritable.symm, records_cons, bytesAt, List.filterMap_cons,
            ← bytesAt, ← ih hrest hpage₁, hbyte, HotPatch.bytesAt, List.filterMap_append]
          cases y.live with
          | none => rfl
          | some r =>
              simp only [Option.toList_some, List.filterMap_cons, List.filterMap_nil,
                Option.bind_some]
              cases r.byteAt? z <;> rfl

/-! ## Restoring in order -/

theorem restoreEach_ok_rewrites {done ys : List Setting} {s' : Site}
    (heq : restoreEach done xs s = (.ok (), ys, s')) :
    Rewrites s.host.memory ((records xs).map UndoRecord.inverse) s'.host.memory := by
  induction xs generalizing done s with
  | nil =>
      cases heq
      exact .nil _
  | cons x xs ih =>
      rw [records_cons]
      rw [restoreEach] at heq
      cases hx : x.live with
      | none =>
          rw [restoreLive_of_unwritten hx] at heq
          exact ih heq
      | some r =>
          by_cases hfit : r.inverse.Fits s.host.memory
          · rw [restoreLive_eq_ok hx hfit] at heq
            exact .cons hfit (ih heq)
          · obtain ⟨e, he⟩ := UndoRecord.apply_eq_error hfit
            simp only [restoreLive, hx, UndoRecord.restore_eq, he] at heq
            cases heq

/-- A restore that fails leaves some setting in memory. -/
theorem restoreEach_error {done ys : List Setting} {s' : Site} {e : SettingError}
    (heq : restoreEach done xs s = (.error e, ys, s')) : ¬ Unwritten ys := by
  induction xs generalizing done s with
  | nil => cases heq
  | cons x xs ih =>
      rw [restoreEach] at heq
      rcases hrestore : x.restoreLive s.host with ⟨r, y, h⟩
      rw [hrestore] at heq
      cases r with
      | ok u => exact ih heq
      | error e' =>
          have hlive : y.live ≠ none := by
            unfold restoreLive at hrestore
            split at hrestore
            · cases hrestore
            · rename_i r hx
              split at hrestore
              · cases hrestore
              · cases hrestore
                simp [hx]
          cases heq
          intro hnone
          exact hlive (hnone y (List.mem_append_right _ List.mem_cons_self))

/-- Settings whose writes cannot be taken back in order are not all restored. -/
theorem restoreAll_error
    (hstays : ∀ n, ¬ Rewrites s.host.memory ((records ys).map UndoRecord.inverse) n) :
    ∃ e zs s', restoreAll ys s = (.error e, zs, s') ∧ ¬ Unwritten zs := by
  rcases heq : restoreAll ys s with ⟨e | u, zs, s'⟩
  · exact ⟨e, zs, s', rfl, restoreEach_error heq⟩
  · exact absurd (restoreEach_ok_rewrites heq) (hstays _)

end Setting

end HotPatch
