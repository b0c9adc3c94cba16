import HotPatch.Proofs.Hook.BatchCustody
import HotPatch.Proofs.Session.Shelf
import HotPatch.Session.Basic

/-!
# Published trampolines are kept

In a session hooks and batches come and go, are called in any order and fail at will, and executable
memory is lent and returned. Each slot that may still be returned has its owner on one of the
shelves, so a trampoline that was published is never returned, and nothing is lent over it.
-/

namespace HotPatch

open Trampoline Dealings Hook

/-! ## Hooks on shelves -/

namespace Shelf

variable {α : Type} {f : α → List Hook} {n : Nat} {x y : α} {s : Shelf α} {h h₁ h' : Host}

def gather (f : α → List Hook) (s : Shelf α) : List Hook := s.flatMap fun e ↦ f e.2

theorem gather_put (hs : s.Ascending) (n : Nat) (x : α) :
    (gather f (s.put n x)).Perm (f x ++ gather f (s.remove n)) :=
  (put_perm hs n x).flatMap_right _

theorem gather_of_get? (hs : s.Ascending) (h : s.get? n = some x) :
    (gather f s).Perm (f x ++ gather f (s.remove n)) :=
  (perm_of_get? hs h).flatMap_right _

theorem handles_put (hs : s.Ascending) (hget : s.get? n = some x)
    (a : Handles h (f x) h' (f y)) : Handles h (gather f s) h' (gather f (s.put n y)) :=
  (a.frame (gather f (s.remove n))).perm (gather_of_get? hs hget) (gather_put hs n y)

theorem handles_remove (hs : s.Ascending) (hget : s.get? n = some x)
    (a : Handles h (f x) h' []) : Handles h (gather f s) h' (gather f (s.remove n)) :=
  (a.frame (gather f (s.remove n))).perm (gather_of_get? hs hget) (.refl _)

theorem handles_new (hs : s.Ascending) (hget : s.get? n = none) (a : Handles h [] h' (f y)) :
    Handles h (gather f s) h' (gather f (s.put n y)) := by
  have hput := gather_put (f := f) hs n y
  rw [get?_eq_none hget] at hput
  exact (a.frame (gather f s)).perm (.refl _) hput

/-- Something new takes the place of what was there, which ends. -/
theorem handles_replace (hs : s.Ascending) (hget : s.get? n = some x) (a : Handles h [] h₁ (f y))
    (b : Handles h₁ (f x) h' []) : Handles h (gather f s) h' (gather f (s.put n y)) := by
  have hdrop := (handles_remove hs hget b).frame_left (f y)
  exact (a.frame (gather f s)).trans (hdrop.perm (.refl _) (gather_put hs n y))

def contents (s : Shelf α) : Multiset α := (s.map Prod.snd : List α)

theorem contents_put (hs : s.Ascending) (n : Nat) (x : α) :
    (s.put n x).contents = {x} + (s.remove n).contents :=
  Multiset.coe_eq_coe.mpr ((put_perm hs n x).map Prod.snd)

theorem contents_of_get? (hs : s.Ascending) (hget : s.get? n = some x) :
    s.contents = {x} + (s.remove n).contents :=
  Multiset.coe_eq_coe.mpr ((perm_of_get? hs hget).map Prod.snd)

end Shelf

namespace Session

variable {s s' : Session}

def allHooks (s : Session) : List Hook :=
  s.hooks.gather (fun k ↦ [k]) ++ s.batches.gather Batch.hooks

def lent (s : Session) : Multiset Slot := s.slots.contents

structure InCustody (s : Session) : Prop where
  hooks : s.hooks.Ascending
  batches : s.batches.Ascending
  slots : s.slots.Ascending
  known : ∀ k ∈ s.allHooks, k.Known (published s.host.dealings)
  custody : Custody s.host (ownedBy s.allHooks + s.lent)

theorem InCustody.handles (hs : s.InCustody) (a : Handles s.host s.allHooks s'.host s'.allHooks)
    (hhooks : s'.hooks.Ascending) (hbatches : s'.batches.Ascending) (hslots : s'.slots = s.slots) :
    s'.InCustody := by
  obtain ⟨hpass, hknown⟩ := a hs.known
  refine ⟨hhooks, hbatches, hslots ▸ hs.slots, hknown, ?_⟩
  rw [lent, hslots]
  exact hpass.custody s.lent hs.custody

theorem InCustody.passes (hs : s.InCustody) (p : Passes s.host s.lent s'.host s'.lent)
    (hslots : s'.slots.Ascending) (hhooks : s'.hooks = s.hooks)
    (hbatches : s'.batches = s.batches) : s'.InCustody := by
  have hall : s'.allHooks = s.allHooks := by rw [allHooks, hhooks, hbatches, allHooks]
  refine ⟨hhooks ▸ hs.hooks, hbatches ▸ hs.batches, hslots, ?_, ?_⟩
  · rw [hall]
    exact fun k hk ↦ (hs.known k hk).mono p.published
  · rw [hall, add_comm]
    have hcustody := hs.custody
    rw [add_comm] at hcustody
    exact p.custody _ hcustody

/-! ## What happens in a session -/

inductive Turn where
  | makeHook (n : Nat) (p : HookPlan)
  | callHook (n : Nat) (c : HookCall)
  | dropHook (n : Nat)
  | makeBatch (n : Nat) (ps : List HookPlan)
  | attachBatch (n : Nat)
  | detachBatch (n : Nat)
  | dropBatch (n : Nat)
  | allocate (n : Nat) (origin : Address) (size : Nat)
  | free (n : Nat)
  | poke (a : Address) (bs : List UInt8)
  | protect (page : Nat) (q : Protection)

def take (t : Turn) (s : Session) : Session :=
  match t with
  | .makeHook n p => s.makeHook n p
  | .callHook n c => (s.callHook n c).2
  | .dropHook n => s.dropHook n
  | .makeBatch n ps => s.makeBatch n ps
  | .attachBatch n => (s.withBatch n Batch.attach).2
  | .detachBatch n => (s.withBatch n Batch.detach).2
  | .dropBatch n => s.dropBatch n
  | .allocate n origin size => (s.allocate n origin size).2
  | .free n => s.free n
  | .poke a bs => s.onHost fun h ↦ h.poke a bs
  | .protect page q => s.protect page q

def play (ts : List Turn) (s : Session) : Session := ts.foldl (fun s t ↦ take t s) s

def Turn.Small : Turn → Prop
  | .allocate _ _ size => size ≤ pageSize
  | _ => True

theorem InCustody.makeHook (hs : s.InCustody) (n : Nat) (p : HookPlan) :
    (s.makeHook n p).InCustody := by
  unfold Session.makeHook
  have hnew := Hook.ofPlan_handles p s.host
  generalize Hook.ofPlan p s.host = made at hnew
  obtain ⟨k, h⟩ := made
  have hsorted := Shelf.ascending_put hs.hooks n k
  cases hget : s.hooks.get? n with
  | none => exact hs.handles ((Shelf.handles_new hs.hooks hget hnew).frame _) hsorted hs.batches rfl
  | some old =>
      have hput := Shelf.handles_replace (f := fun k ↦ [k]) hs.hooks hget hnew
        (old.release_handles h)
      exact hs.handles (hput.frame _) hsorted hs.batches rfl

theorem InCustody.callHook (hs : s.InCustody) (n : Nat) (c : HookCall) :
    (s.callHook n c).2.InCustody := by
  unfold Session.callHook
  split
  · exact hs
  · rename_i k hget
    have hcall := Shelf.handles_put (f := fun k ↦ [k]) hs.hooks hget (k.call_handles c s.host)
    exact hs.handles (hcall.frame _) (Shelf.ascending_put hs.hooks n _) hs.batches rfl

theorem InCustody.dropHook (hs : s.InCustody) (n : Nat) : (s.dropHook n).InCustody := by
  unfold Session.dropHook
  split
  · exact hs
  · rename_i k hget
    have hdrop := Shelf.handles_remove (f := fun k ↦ [k]) hs.hooks hget (k.release_handles s.host)
    exact hs.handles (hdrop.frame _) (Shelf.ascending_remove hs.hooks n) hs.batches rfl

theorem InCustody.makeBatch (hs : s.InCustody) (n : Nat) (ps : List HookPlan) :
    (s.makeBatch n ps).InCustody := by
  unfold Session.makeBatch
  have hnew := Hook.ofPlans_handles ps s.host
  generalize Hook.ofPlans ps s.host = made at hnew
  obtain ⟨ks, h⟩ := made
  have hsorted := Shelf.ascending_put hs.batches n (Batch.ofHooks ks)
  have hbatch : Handles s.host [] h (Batch.ofHooks ks).hooks := hnew
  cases hget : s.batches.get? n with
  | none =>
      have hput := Shelf.handles_new hs.batches hget hbatch
      exact hs.handles (hput.frame_left _) hs.hooks hsorted rfl
  | some old =>
      have hput := Shelf.handles_replace hs.batches hget hbatch (old.release_handles h)
      exact hs.handles (hput.frame_left _) hs.hooks hsorted rfl

theorem InCustody.withBatch (hs : s.InCustody) (n : Nat)
    {f : Batch → Host → Except BatchError Unit × Batch × Host}
    (hf : ∀ b h, Handles h b.hooks (f b h).2.2 (f b h).2.1.hooks) :
    (s.withBatch n f).2.InCustody := by
  unfold Session.withBatch
  split
  · exact hs
  · rename_i b hget
    have hcall := Shelf.handles_put (f := Batch.hooks) hs.batches hget (hf b s.host)
    exact hs.handles (hcall.frame_left _) hs.hooks (Shelf.ascending_put hs.batches n _) rfl

theorem InCustody.dropBatch (hs : s.InCustody) (n : Nat) : (s.dropBatch n).InCustody := by
  unfold Session.dropBatch
  split
  · exact hs
  · rename_i b hget
    have hdrop := Shelf.handles_remove (f := Batch.hooks) hs.batches hget (b.release_handles s.host)
    exact hs.handles (hdrop.frame_left _) hs.hooks (Shelf.ascending_remove hs.batches n) rfl

theorem InCustody.free (hs : s.InCustody) (n : Nat) : (s.free n).InCustody := by
  unfold Session.free
  split
  · exact hs
  · rename_i slot hget
    refine hs.passes ?_ (Shelf.ascending_remove hs.slots n) rfl rfl
    have hfree := (s.host.free_passes slot).frame (s.slots.remove n).contents
    rw [zero_add] at hfree
    rw [lent, Shelf.contents_of_get? hs.slots hget]
    exact hfree

theorem InCustody.allocate (hs : s.InCustody) (n : Nat) (origin : Address) {size : Nat}
    (hsize : size ≤ pageSize) : (s.allocate n origin size).2.InCustody := by
  unfold Session.allocate
  have hlent := (s.host.allocate_passes origin hsize).frame s.lent
  rw [zero_add] at hlent
  generalize s.host.allocate origin size = result at hlent
  obtain ⟨_ | slot, h⟩ := result
  · rw [zero_add] at hlent
    exact hs.passes hlent hs.slots rfl rfl
  · have hfilled : Passes s.host s.lent (h.fill slot (List.replicate size breakpoint))
        ({slot} + s.lent) := hlent.trans (.of_samePool ⟨rfl, rfl⟩)
    refine hs.passes ?_ (Shelf.ascending_put hs.slots n slot) rfl rfl
    rw [lent] at hfilled
    simp only [lent, Shelf.contents_put hs.slots]
    cases hget : s.slots.get? n with
    | none =>
        rw [Shelf.get?_eq_none hget]
        exact hfilled
    -- what stood under the number is returned only after the new slot was lent
    | some old =>
        have hfree := ((h.fill slot (List.replicate size breakpoint)).free_passes old).frame
          ({slot} + (s.slots.remove n).contents)
        rw [zero_add, add_left_comm, ← Shelf.contents_of_get? hs.slots hget] at hfree
        exact hfilled.trans hfree

theorem InCustody.onHost (hs : s.InCustody) {f : Host → Host}
    (hf : ∀ h : Host, h.SamePool (f h)) : (s.onHost f).InCustody :=
  hs.handles (.of_samePool (hf s.host)) hs.hooks hs.batches rfl

/-- Whatever happens, each slot that may still be returned has its owner on a shelf. -/
theorem InCustody.take (hs : s.InCustody) {t : Turn} (ht : t.Small) : (take t s).InCustody := by
  cases t with
  | makeHook n p => exact hs.makeHook n p
  | callHook n c => exact hs.callHook n c
  | dropHook n => exact hs.dropHook n
  | makeBatch n ps => exact hs.makeBatch n ps
  | attachBatch n => exact hs.withBatch n Batch.attach_handles
  | detachBatch n => exact hs.withBatch n Batch.detach_handles
  | dropBatch n => exact hs.dropBatch n
  | allocate n origin size => exact hs.allocate n origin ht
  | free n => exact hs.free n
  | poke a bs =>
      unfold Session.take
      exact hs.onHost fun h ↦ ⟨rfl, rfl⟩
  | protect page q =>
      unfold Session.take protect
      refine hs.onHost fun h ↦ ?_
      split <;> exact ⟨rfl, rfl⟩

/-- Everything that happens in a session keeps the owners on its shelves. -/
theorem InCustody.play (hs : s.InCustody) {ts : List Turn} (hts : ∀ t ∈ ts, t.Small) :
    (play ts s).InCustody := by
  induction ts generalizing s with
  | nil => exact hs
  | cons t ts ih =>
      obtain ⟨ht, hrest⟩ := List.forall_mem_cons.mp hts
      exact ih (hs.take ht) hrest

theorem inCustody_begin {host : Host} (hpool : host.pool = .empty) (hdealings : host.dealings = [])
    (first count : Nat) (registry : Registry) (version : Version) (image : Image) :
    (begin host first count registry version image).InCustody where
  hooks := .nil
  batches := .nil
  slots := .nil
  known := nofun
  custody := by
    have hhost : Custody host (0 + 0) := by
      refine ⟨?_, ?_, ?_, ?_⟩
      · rw [hpool]
        exact Pool.sound_empty
      · rw [hpool]
        exact List.forall_mem_nil _
      · rw [hdealings]
        exact .nil
      · rw [hdealings]
        exact Multiset.zero_le _
    exact hhost

/-- Whatever hooks and batches do in a session, and whichever of their calls fail: after the address
of a trampoline was given to an interceptor, no memory that is lent overlaps that trampoline, if
memory is lent apart from the live slots of its page. -/
theorem published_kept {host : Host} (hpool : host.pool = .empty) (hdealings : host.dealings = [])
    (first count : Nat) (registry : Registry) (version : Version) (image : Image) {ts : List Turn}
    (hsmall : ∀ t ∈ ts, t.Small)
    (hcarved : Carved (play ts (begin host first count registry version image)).host.dealings) :
    ∀ later slot earlier,
      (play ts (begin host first count registry version image)).host.dealings =
        later ++ .lent slot :: earlier →
      ∀ trampoline ∈ published earlier, ¬ slot.Overlaps trampoline := by
  intro later slot earlier hsplit trampoline htrampoline
  have hcustody :=
    ((inCustody_begin hpool hdealings first count registry version image).play hsmall).custody
  exact hcustody.honest.not_overlaps hcarved hsplit htrampoline

def padded : Host :=
  .ofMemory ((Memory.empty.map 0x1000000 1 .all).store 0x1000000000 (List.replicate 32 0x90))

def Turn.lendAfterDrop : List Turn :=
  [.makeHook 0 (.inline "f" 0x1000000000 0x2000 0), .callHook 0 .prepare, .callHook 0 .attach,
    .callHook 0 .detach, .dropHook 0, .allocate 1 0x1000000000 64]

/-- The memory is lent behind the trampoline of the hook. -/
theorem published_kept_lendAfterDrop :
    (play Turn.lendAfterDrop (begin padded 0 0 [] .unknown ⟨0, 0⟩)).host.dealings =
        [.lent ⟨0x1000001000, 434, 64⟩, .published ⟨0x1000001000, 0, 434⟩,
          .lent ⟨0x1000001000, 0, 434⟩] ∧
      ¬ (Slot.mk 0x1000001000 434 64).Overlaps ⟨0x1000001000, 0, 434⟩ := by
  have hpool : padded.pool = .empty := rfl
  have hnone : padded.dealings = [] := rfl
  have hsmall : ∀ t ∈ Turn.lendAfterDrop, t.Small := by
    simp [Turn.lendAfterDrop, Turn.Small, pageSize]
  have hcarved : Carved
      (play Turn.lendAfterDrop (begin padded 0 0 [] .unknown ⟨0, 0⟩)).host.dealings := by
    decide +kernel
  have hkept := published_kept hpool hnone 0 0 [] .unknown ⟨0, 0⟩ hsmall hcarved
  have hdealings : (play Turn.lendAfterDrop (begin padded 0 0 [] .unknown ⟨0, 0⟩)).host.dealings =
      [.lent ⟨0x1000001000, 434, 64⟩, .published ⟨0x1000001000, 0, 434⟩,
        .lent ⟨0x1000001000, 0, 434⟩] := by
    decide +kernel
  refine ⟨hdealings, hkept [] _ _ hdealings _ ?_⟩
  simp [published]

end Session

end HotPatch
