import HotPatch.Proofs.Disjoint
import HotPatch.Proofs.Setting.Group

/-!
# Settings in step with memory

A setting that is bound to a fixed address is live or not. A live one has a single write in memory,
at that address and of its value. Settings that are bound apart from each other are withdrawn all
together or not at all, and those that were withdrawn are written again as they were.
-/

namespace HotPatch

open Host

namespace Setting

/-- Two bindings do not share a byte, as far as they are to fixed addresses. -/
def Binding.Apart (b c : Binding) : Prop :=
  ∀ a a', b.place = .fixed a → c.place = .fixed a' →
    a + b.width.length ≤ a' ∨ a' + c.width.length ≤ a

def bindings (xs : List Setting) : List Binding := xs.filterMap (·.binding)

def Apart (xs : List Setting) : Prop := (bindings xs).Pairwise Binding.Apart

/-- A setting is bound to a fixed address or not at all, and in the first case its value is in
memory if it is to be live. -/
inductive InStep : Bool → Setting → Prop where
  | unbound {live : Bool} {x : Setting} (hpending : x.pending = false) (hbinding : x.binding = none)
      (hlive : x.live = none) : InStep live x
  | off {x : Setting} {b : Binding} {a : Address} (hpending : x.pending = false)
      (hbinding : x.binding = some b) (hplace : b.place = .fixed a) (hlive : x.live = none) :
      InStep false x
  | on {x : Setting} {b : Binding} {r : UndoRecord} (hpending : x.pending = false)
      (hbinding : x.binding = some b) (hplace : b.place = .fixed r.address)
      (hafter : r.after = b.width.encode x.value) (hlive : x.live = some r) : InStep true x

variable {x y : Setting} {xs ys ds : List Setting} {live : Bool} {s s' : Site} {m m₀ : Memory}
  {r : UndoRecord}

namespace InStep

theorem pending (hx : x.InStep live) : x.pending = false := by
  cases hx with
  | unbound hpending => exact hpending
  | off hpending => exact hpending
  | on hpending => exact hpending

theorem live_eq_none (hx : x.InStep false) : x.live = none := by
  cases hx with
  | unbound _ _ hlive => exact hlive
  | off _ _ _ hlive => exact hlive

/-- A write that is in memory is where the setting is bound to. -/
theorem bound (hx : x.InStep live) (hr : x.live = some r) :
    ∃ b, x.binding = some b ∧ b.place = .fixed r.address ∧ r.after.length = b.width.length := by
  cases hx with
  | unbound _ _ hlive =>
      rw [hlive] at hr
      cases hr
  | off _ _ _ hlive =>
      rw [hlive] at hr
      cases hr
  | on _ hbinding hplace hafter hlive =>
      rw [hlive] at hr
      cases hr
      exact ⟨_, hbinding, hplace, by rw [hafter, Width.length_encode]⟩

theorem withdrawn (hx : x.InStep live) : x.withdrawn.InStep false := by
  cases hx with
  | unbound _ hbinding _ => exact .unbound rfl hbinding rfl
  | off _ hbinding hplace _ => exact .off rfl hbinding hplace rfl
  | on _ hbinding hplace _ _ => exact .off rfl hbinding hplace rfl

theorem withdrawn_eq (hx : x.InStep false) : x.withdrawn = x := by
  rw [Setting.withdrawn, ← hx.pending, ← hx.live_eq_none]

end InStep

theorem bindings_withdrawn (xs : List Setting) : bindings (xs.map withdrawn) = bindings xs := by
  rw [bindings, List.filterMap_map]
  rfl

/-- The writes of settings that are bound apart do not overlap. -/
theorem Apart.disjoint (hap : Apart xs) (hxs : ∀ x ∈ xs, ∃ live, x.InStep live) :
    (records xs).Pairwise UndoRecord.Disjoint := by
  rw [Apart, bindings, List.pairwise_filterMap] at hap
  rw [records, List.pairwise_filterMap]
  refine hap.imp_of_mem fun {x y} hx hy happ r hr q hq z hz hz' ↦ ?_
  obtain ⟨_, hstep⟩ := hxs x hx
  obtain ⟨_, hstep'⟩ := hxs y hy
  obtain ⟨b, hb, hplace, hlength⟩ := hstep.bound hr
  obtain ⟨c, hc, hplace', hlength'⟩ := hstep'.bound hq
  have hdisjoint := happ b hb c hc r.address q.address hplace hplace'
  simp only [UndoRecord.Covers, Address] at hz hz' hdisjoint
  omega

/-! ## Writing what was withdrawn -/

theorem writeLive_withdrawn (hx : x.InStep true) (hw : Rewrites s.host.memory x.live.toList m) :
    ∃ s', x.withdrawn.writeLive s = (.ok true, x, s') ∧ Calm (s.host.withMemory m) s'.host := by
  cases hx with
  | unbound hpending hbinding hlive =>
      rw [hlive] at hw
      cases hw
      refine ⟨s, ?_, .refl _⟩
      have hsame : x.withdrawn = x := by rw [withdrawn, ← hpending, ← hlive]
      rw [hsame, writeLive, hbinding]
  | @on _ b r hpending hbinding hplace hafter hlive =>
      rw [hlive] at hw
      cases hw with
      | cons hfit hrest =>
          cases hrest
          have hmake := hfit.make_eq_ok
          rw [hafter] at hmake
          have hlocate : b.locate s = (some r.address, s) := by rw [Binding.locate, hplace]
          have hsame : { x with pending := false, live := some r } = x := by
            rw [← hpending, ← hlive]
          simp only [writeLive, withdrawn, hbinding, hlocate, writeAt, hmake]
          rw [← hbinding, hsame]
          exact ⟨_, rfl, calm_note _ (by decide) _⟩

theorem writeAll_withdrawn (hxs : ∀ x ∈ xs, x.InStep true)
    (hw : Rewrites s.host.memory (records xs) m) :
    ∃ s', writeAll (xs.map withdrawn) s = (.ok (), xs, s') ∧
      Calm (s.host.withMemory m) s'.host := by
  induction xs generalizing s with
  | nil =>
      cases hw
      exact ⟨s, rfl, .refl _⟩
  | cons x xs ih =>
      rw [records_cons] at hw
      obtain ⟨m₁, hfirst, hrest⟩ := Rewrites.append_iff.mp hw
      obtain ⟨s₁, heq, hcalm⟩ := writeLive_withdrawn (hxs x (List.mem_cons_self ..)) hfirst
      have hmemory : s₁.host.memory = m₁ := hcalm.memory
      rw [← hmemory] at hrest
      obtain ⟨s₂, heq', hcalm'⟩ := ih (fun y hy ↦ hxs y (List.mem_cons_of_mem x hy)) hrest
      refine ⟨s₂, ?_, (hcalm.withMemory m).trans hcalm'⟩
      simp only [List.map_cons, writeAll, heq, heq']

/-- Writing again stops at no setting; here it has no reason to. -/
theorem writeAgain_eq (hw : writeAll xs s = (.ok (), ys, s')) : writeAgain xs s = (ys, s') := by
  induction xs generalizing s ys with
  | nil =>
      cases hw
      rfl
  | cons x xs ih =>
      rw [writeAll] at hw
      rcases heq : x.writeLive s with ⟨r, y, s₁⟩
      rw [heq] at hw
      cases r with
      | error e => cases hw
      | ok u =>
          rcases heq' : writeAll xs s₁ with ⟨r, zs, s₂⟩
          simp only [heq'] at hw
          cases hw
          simp only [writeAgain, heq, ih heq']

/-! ## Withdrawing -/

/-- Restoring, `ds` being the settings that were restored so far, goes all the way or back to
`m₀`. -/
theorem restoreEach_cases (ds : List Setting) (hxs : ∀ x ∈ ds ++ xs, x.InStep true)
    (hap : Apart (ds ++ xs)) (hback : Rewrites s.host.memory (records ds) m₀) :
    (∃ m, Rewrites s.host.memory ((records xs).map UndoRecord.inverse) m ∧
        restoreEach (ds.map withdrawn).reverse xs s =
          (.ok (), (ds ++ xs).map withdrawn, { s with host := s.host.withMemory m })) ∨
      ∃ e s', restoreEach (ds.map withdrawn).reverse xs s = (.error e, ds ++ xs, s') ∧
        Calm (s.host.withMemory m₀) s'.host := by
  induction xs generalizing ds s with
  | nil =>
      refine .inl ⟨s.host.memory, .nil _, ?_⟩
      rw [restoreEach, List.reverse_reverse, List.append_nil]
      rfl
  | cons x xs ih =>
      have hsplit : ds ++ x :: xs = (ds ++ [x]) ++ xs := by simp
      have hdone : x.withdrawn :: (ds.map withdrawn).reverse =
          ((ds ++ [x]).map withdrawn).reverse := by simp
      have hgo (s : Site) := ih (s := s) (ds ++ [x]) (hsplit ▸ hxs) (hsplit ▸ hap)
      rw [← hsplit, ← hdone] at hgo
      have hrecords : records (ds ++ [x]) = records ds ++ x.live.toList := by
        rw [records, List.filterMap_append, ← records, ← records, records_cons]
        exact congrArg _ (List.append_nil _)
      rw [records_cons]
      cases hx : x.live with
      | none =>
          rw [restoreEach, restoreLive_of_unwritten hx]
          rw [hx, Option.toList_none, List.append_nil] at hrecords
          exact hgo s (hrecords ▸ hback)
      | some r =>
          rw [hx] at hrecords
          by_cases hfit : r.inverse.Fits s.host.memory
          · have hdisjoint : (r :: records ds).Pairwise UndoRecord.Disjoint := by
              have hall := hap.disjoint fun y hy ↦ ⟨true, hxs y hy⟩
              rw [records, List.filterMap_append, ← records, ← records, records_cons, hx] at hall
              exact (hall.perm List.perm_middle fun hd ↦ hd.symm).sublist
                ((List.sublist_append_left ..).cons_cons r)
            have hagain : Rewrites (r.inverse.onto s.host.memory) (records (ds ++ [x])) m₀ := by
              rw [hrecords]
              have hfirst : Rewrites (r.inverse.onto s.host.memory) (r :: records ds) m₀ :=
                .cons hfit.inverse (hfit.inverse_onto.symm ▸ hback)
              exact hfirst.perm (List.perm_append_singleton r _).symm hdisjoint
            rw [restoreEach, restoreLive_eq_ok hx hfit]
            rcases hgo { s with host := s.host.withMemory (r.inverse.onto s.host.memory) } hagain
              with ⟨m, hw, heq⟩ | hfailed
            · exact .inl ⟨m, .cons hfit hw, heq⟩
            · exact .inr hfailed
          · obtain ⟨e, he⟩ := UndoRecord.apply_eq_error hfit
            have hstep := hxs x (List.mem_append_right ds (List.mem_cons_self ..))
            have hstay : x.restoreLive s.host = (.error (.write x.name e), x, s.host) := by
              simp only [restoreLive, hx, UndoRecord.restore_eq, he]
              rw [← hstep.pending, ← hx]
            have hds : ∀ y ∈ ds, y.InStep true := fun y hy ↦ hxs y (List.mem_append_left _ hy)
            obtain ⟨s', hwrite, hcalm⟩ := writeAll_withdrawn hds hback
            refine .inr ⟨.write x.name e, s', ?_, hcalm⟩
            simp only [restoreEach, hstay, List.reverse_reverse, writeAgain_eq hwrite]

/-- Settings that are live are withdrawn and can be written again, or all stay live and memory is as
it was. -/
theorem restoreAll_cases (hxs : ∀ x ∈ xs, x.InStep true) (hap : Apart xs) (s : Site) :
    (∃ m, Rewrites m (records xs) s.host.memory ∧ restoreAll xs s =
        (.ok (), xs.map withdrawn, { s with host := s.host.withMemory m })) ∨
      ∃ e s', restoreAll xs s = (.error e, xs, s') ∧ Calm s.host s'.host := by
  rcases restoreEach_cases [] hxs hap (.nil s.host.memory) with ⟨m, hw, heq⟩ | hfailed
  · have hdisjoint := hap.disjoint fun x hx ↦ ⟨true, hxs x hx⟩
    have hback : Rewrites m (records xs).reverse s.host.memory := by
      have hu := hw.unwinds
      rwa [Unwinds, ← List.map_reverse, UndoRecord.inverse_map_inverse] at hu
    refine .inl ⟨m, hback.perm (List.reverse_perm _) ?_, heq⟩
    exact hdisjoint.perm (List.reverse_perm _).symm fun hd ↦ hd.symm
  · exact .inr hfailed

/-! ## Writing for the first time -/

/-- A setting that is not live is written, or stays as it is. -/
theorem InStep.writeLive (hx : x.InStep false) (s : Site) :
    ∃ r y s' m, x.writeLive s = (r, y, s') ∧ y.withdrawn = x ∧ (∃ live, y.InStep live) ∧
      (∀ b, r = .ok b → y.InStep true) ∧ Rewrites s.host.memory y.live.toList m ∧
      Calm (s.host.withMemory m) s'.host := by
  have hsame := hx.withdrawn_eq
  have hstay : Rewrites s.host.memory x.live.toList s.host.memory := by
    rw [hx.live_eq_none]
    exact .nil _
  cases hx with
  | unbound hpending hbinding hlive =>
      refine ⟨.ok true, x, s, s.host.memory, ?_, hsame, ⟨true, .unbound hpending hbinding hlive⟩,
        fun _ _ ↦ .unbound hpending hbinding hlive, hstay, .refl _⟩
      rw [Setting.writeLive, hbinding]
  | @off _ b a hpending hbinding hplace hlive =>
      have hlocate : b.locate s = (some a, s) := by rw [Binding.locate, hplace]
      rcases UndoRecord.make_cases a (b.width.encode x.value) s.host with
        ⟨-, e, hmake⟩ | ⟨r, haddress, hafter, hfit, hmake⟩
      · simp only [Setting.writeLive, hbinding, hlocate, writeAt, hlive, hmake]
        refine ⟨_, _, _, s.host.memory, rfl, hsame, ⟨_, .off hpending hbinding hplace hlive⟩,
          fun b hr ↦ ?_, hstay, .refl _⟩
        cases hr
      · have hon : InStep true { x with pending := false, live := some r } :=
          .on rfl hbinding (haddress ▸ hplace) hafter rfl
        simp only [Setting.writeLive, hbinding, hlocate, writeAt, hlive, hmake]
        rw [← hbinding]
        refine ⟨_, _, _, _, rfl, ?_, ⟨_, hon⟩, fun _ _ ↦ hon, .single hfit,
          calm_note _ (by decide) _⟩
        rw [Setting.withdrawn, ← hlive, ← hpending]

/-- Settings of which none is in memory are written in order, up to the first one that fails. -/
theorem writeAll_of_off (hxs : ∀ x ∈ xs, x.InStep false) (s : Site) :
    ∃ r ys s' m, writeAll xs s = (r, ys, s') ∧ ys.map withdrawn = xs ∧
      (∀ y ∈ ys, ∃ live, y.InStep live) ∧ (r = .ok () → ∀ y ∈ ys, y.InStep true) ∧
      Rewrites s.host.memory (records ys) m ∧ Calm (s.host.withMemory m) s'.host := by
  induction xs generalizing s with
  | nil =>
      exact ⟨_, [], s, s.host.memory, rfl, rfl, List.forall_mem_nil _,
        fun _ ↦ List.forall_mem_nil _, .nil _, .refl _⟩
  | cons x xs ih =>
      have hrest : ∀ y ∈ xs, y.InStep false := fun y hy ↦ hxs y (List.mem_cons_of_mem x hy)
      obtain ⟨r, y, s₁, m₁, heq, hsame, hstep, hon, hw, hcalm⟩ :=
        (hxs x (List.mem_cons_self ..)).writeLive s
      rw [writeAll, heq]
      cases r with
      | error e =>
          have hnone : records xs = [] :=
            List.filterMap_eq_nil_iff.mpr fun z hz ↦ (hrest z hz).live_eq_none
          refine ⟨_, y :: xs, s₁, m₁, rfl, ?_, ?_, fun hr ↦ ?_, ?_, hcalm⟩
          · have hxs' := List.map_congr_left fun z hz ↦ (hrest z hz).withdrawn_eq
            rw [List.map_cons, hsame, hxs', List.map_id']
          · exact List.forall_mem_cons.mpr ⟨hstep, fun z hz ↦ ⟨_, hrest z hz⟩⟩
          · cases hr
          · rwa [records_cons, hnone, List.append_nil]
      | ok u =>
          obtain ⟨r, ys, s₂, m₂, heq', hsames, hsteps, hons, hws, hcalm'⟩ := ih hrest s₁
          have hmemory : s₁.host.memory = m₁ := hcalm.memory
          rw [hmemory] at hws
          refine ⟨r, y :: ys, s₂, m₂, by simp only [heq'], ?_, ?_, fun hr ↦ ?_, ?_,
            (hcalm.withMemory m₂).trans hcalm'⟩
          · rw [List.map_cons, hsame, hsames]
          · exact List.forall_mem_cons.mpr ⟨hstep, hsteps⟩
          · exact List.forall_mem_cons.mpr ⟨hon u rfl, hons hr⟩
          · rw [records_cons]
            exact hw.append hws

/-! ## Changing a value -/

/-- A setting that is given a value stays in step, in memory or out of it. -/
theorem InStep.change (hx : x.InStep live) (hkept : x.kind.clamp? x.value = some x.value)
    (v : Value) (s : Site) :
    ∃ r y s' m, change x v live s = (r, y, s') ∧ y.InStep live ∧ y.binding = x.binding ∧
      Quiet (s.host.withMemory m) s'.host := by
  unfold Setting.change assign
  cases hclamp : x.kind.clamp? v with
  | none => exact ⟨_, x, s, s.host.memory, rfl, hx, rfl, .refl _⟩
  | some w =>
      cases hx with
      | unbound hpending hbinding hlive =>
          have hstep : InStep live { x with value := w } := .unbound hpending hbinding hlive
          cases live with
          | false => exact ⟨_, _, s, s.host.memory, rfl, hstep, rfl, .refl _⟩
          | true =>
              simp only [Setting.writeLive, hbinding, if_true]
              exact ⟨_, _, s, s.host.memory, rfl, hbinding ▸ hstep, rfl, .refl _⟩
      | off hpending hbinding hplace hlive =>
          exact ⟨_, _, s, s.host.memory, rfl, .off hpending hbinding hplace hlive, rfl, .refl _⟩
      | @on _ b r hpending hbinding hplace hafter hlive =>
          have hlocate : b.locate s = (some r.address, s) := by rw [Binding.locate, hplace]
          rcases r.retarget_cases (b.width.encode w) s.host with ⟨e, -, heq⟩ | ⟨hlength, hfit, heq⟩
          · simp only [if_true, Setting.writeLive, hbinding, hlocate, writeAt, hlive, heq, hkept]
            rw [← hbinding, ← hlive]
            exact ⟨_, x, _, s.host.memory, rfl, .on hpending hbinding hplace hafter hlive, rfl,
              quiet_assertEven ..⟩
          · simp only [if_true, Setting.writeLive, hbinding, hlocate, writeAt, hlive, heq]
            have hplace' : b.place = .fixed (r.withAfter (b.width.encode w) hlength).address :=
              hplace
            exact ⟨_, _, _, _, rfl, .on rfl rfl hplace' rfl rfl, rfl, quiet_note ..⟩

theorem changeFirst_cases (hxs : ∀ x ∈ xs, x.InStep live) {name : String}
    (hkept : ∀ x ∈ xs, x.name = name → x.kind.clamp? x.value = some x.value) (v : Value)
    (s : Site) :
    ∃ r ys s' m, changeFirst name v live xs s = (r, ys, s') ∧ (∀ y ∈ ys, y.InStep live) ∧
      bindings ys = bindings xs ∧ Quiet (s.host.withMemory m) s'.host := by
  induction xs with
  | nil => exact ⟨_, [], s, s.host.memory, rfl, hxs, rfl, .refl _⟩
  | cons x xs ih =>
      obtain ⟨hx, hrest⟩ := List.forall_mem_cons.mp hxs
      obtain ⟨hkept₁, hkept₂⟩ := List.forall_mem_cons.mp hkept
      rw [changeFirst]
      split
      · rename_i hname
        obtain ⟨r, y, s', m, heq, hstep, hbinding, hquiet⟩ := hx.change (hkept₁ hname) v s
        refine ⟨r, y :: xs, s', m, by simp only [heq], List.forall_mem_cons.mpr ⟨hstep, hrest⟩, ?_,
          hquiet⟩
        simp only [bindings, List.filterMap_cons, hbinding]
      · obtain ⟨r, ys, s', m, heq, hsteps, hbindings, hquiet⟩ := ih hrest hkept₂
        refine ⟨r, x :: ys, s', m, by simp only [heq], List.forall_mem_cons.mpr ⟨hx, hsteps⟩, ?_,
          hquiet⟩
        rw [bindings] at hbindings
        simp only [bindings, List.filterMap_cons, hbindings]

/-- No setting that is bound to a fixed address waits for one. -/
theorem writePending_eq (hxs : ∀ x ∈ xs, x.InStep live) (patch : String) (s : Site) :
    writePending patch xs s = (xs, s) := by
  induction xs with
  | nil => rfl
  | cons x xs ih =>
      obtain ⟨hx, hrest⟩ := List.forall_mem_cons.mp hxs
      rw [writePending, if_neg (by simp [hx.pending]), ih hrest]

end Setting

end HotPatch
