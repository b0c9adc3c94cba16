import HotPatch.Proofs.Matched.Manager
import HotPatch.Proofs.Session.Custody

/-!
# No write of a session is uneven

Records are captured and used, transactions and hooks come and go, and patches write their settings,
in any order and with any failures. No write is ever asked to put more or fewer bytes than it
expects to find, and undoing stays within what was captured.
-/

namespace HotPatch

open Host

/-! ## What can stand in the way of a write -/

namespace UndoRecord

variable {r : UndoRecord} {new : List UInt8}

/-- Only what memory holds and permits decides whether a record can be applied. -/
theorem apply_ok_iff (r : UndoRecord) (h : Host) :
    (r.apply h).1 = .ok () ↔ h.memory.Holds r.address r.before := by
  constructor
  · intro hok
    by_contra hnot
    obtain ⟨e, he⟩ := apply_eq_error hnot
    rw [he] at hok
    cases hok
  · intro hold
    rw [apply_eq_ok hold]

theorem restore_ok_iff (r : UndoRecord) (h : Host) :
    (r.restore h).1 = .ok () ↔ h.memory.Holds r.address r.after := r.inverse.apply_ok_iff h

/-- A new value of the same length can be written wherever the old one is. -/
theorem retarget_ok_iff (hlength : r.after.length = new.length) (h : Host) :
    (∃ q, (r.retarget new h).1 = .ok q) ↔ h.memory.Holds r.address r.after := by
  rcases r.retarget_cases new h with ⟨e, hrefused, heq⟩ | ⟨_, hfit, heq⟩
  · rw [heq]
    exact iff_of_false nofun fun hold ↦ hrefused ⟨hlength, hold⟩
  · rw [heq]
    exact iff_of_true ⟨_, rfl⟩ hfit

/-- Restoring writes where the record was captured and nowhere else. -/
theorem byte_restore (r : UndoRecord) (h : Host) {x : Nat}
    (hx : ¬ (r.address ≤ x ∧ x < r.address + r.after.length)) :
    (r.restore h).2.memory.byte x = h.memory.byte x ∧
      (r.restoreQuietly h).2.memory.byte x = h.memory.byte x := by
  have hout : ¬ r.inverse.Covers x := by rwa [covers_inverse]
  rw [restore_eq, restoreQuietly_eq]
  by_cases hfit : r.inverse.Fits h.memory
  · rw [apply_eq_ok hfit, applyQuietly_eq_ok hfit]
    exact ⟨byte_onto_of_not_covers _ hout, byte_onto_of_not_covers _ hout⟩
  · obtain ⟨e, he⟩ := apply_eq_error hfit
    obtain ⟨e', he'⟩ := applyQuietly_eq_error hfit
    rw [he, he']
    exact ⟨rfl, rfl⟩

end UndoRecord

/-- Memory is lent as it was asked for. -/
theorem Host.length_of_allocate {h h₁ : Host} {origin : Address} {size : Nat}
    {slot : Trampoline.Slot} (hlent : h.allocate origin size = (some slot, h₁)) :
    slot.length = size := by
  unfold Host.allocate at hlent
  split at hlent
  · cases hlent
  · rename_i heq
    cases hlent
    exact Trampoline.Pool.length_of_allocate heq

/-! ## What a session holds -/

/-- The records that a change holds, be they in memory or not. -/
def Change.held : Change → List UndoRecord
  | .writes t => t.records
  | .hooks b => b.hooks.filterMap Hook.record?

def Patch.held (p : Patch) : List UndoRecord :=
  Setting.records p.settings ++ p.changes.flatMap Change.held

namespace Session

variable {s s' : Session}

def held (s : Session) : List UndoRecord :=
  s.records.map Prod.snd ++ s.transactions.flatMap (fun e ↦ e.2.records) ++
    s.allHooks.filterMap Hook.record? ++ s.manager.patches.flatMap Patch.held

structure Matched (s : Session) : Prop where
  manager : s.manager.Matched
  registry : ∀ e ∈ s.registry, Setting.Unwritten e.body.settings

/-! ## What happens in a session -/

inductive Action where
  /-- Something about hooks, batches, executable memory or the host itself. -/
  | turn (t : Turn)
  | capture (n : Nat) (a : Address) (new : List UInt8)
  | apply (n : Nat)
  | restore (n : Nat)
  | makeTransaction (n : Nat)
  | write (n : Nat) (w : Write)
  | commit (n : Nat)
  | rollback (n : Nat)
  | dropTransaction (n : Nat)
  | manage (t : Manager.Turn)
  | renew
  | close

def act (a : Action) (s : Session) : Session :=
  match a with
  | .turn t => take t s
  | .capture n a new => (s.capture n a new).2
  | .apply n => (s.withRecord n UndoRecord.apply).2
  | .restore n => (s.withRecord n UndoRecord.restore).2
  | .makeTransaction n => s.putTransaction n .empty
  | .write n w => (s.withTransaction n fun t h ↦ t.perform w h).2
  | .commit n => (s.withTransaction n fun t h ↦ (.ok (), t.commit, h)).2
  | .rollback n => (s.withTransaction n Transaction.rollback).2
  | .dropTransaction n => s.dropTransaction n
  | .manage t => (s.manage fun m h ↦ ((), t.take m h)).2
  | .renew => s.renew
  | .close => s.close

def enact (as : List Action) (s : Session) : Session := as.foldl (fun s a ↦ act a s) s

/-- Each write on the way is even, and what the settings of the session have in memory goes on to
match their bindings. -/
def KeepsMatched (s s' : Session) : Prop := s.Matched → s'.Matched ∧ Exact s.host s'.host

theorem KeepsMatched.refl (s : Session) : KeepsMatched s s := fun hs ↦ ⟨hs, .refl _⟩

/-! ## Records and transactions -/

theorem capture_keeps (s : Session) (n : Nat) (a : Address) (new : List UInt8) :
    KeepsMatched s (s.capture n a new).2 := by
  intro hs
  unfold Session.capture
  split
  · exact ⟨{ hs with }, .refl _⟩
  · exact ⟨hs, .refl _⟩

theorem withRecord_keeps (s : Session) (n : Nat)
    {f : UndoRecord → Host → Except MemoryError Unit × Host} (hf : ∀ r h, Exact h (f r h).2) :
    KeepsMatched s (s.withRecord n f).2 := by
  intro hs
  unfold withRecord
  split
  · exact ⟨hs, .refl _⟩
  · rename_i r _
    exact ⟨{ hs with }, hf r s.host⟩

theorem putTransaction_keeps (s : Session) (n : Nat) (t : Transaction) :
    KeepsMatched s (s.putTransaction n t) := by
  intro hs
  unfold putTransaction
  split
  · exact ⟨{ hs with }, .refl _⟩
  · rename_i old _
    exact ⟨{ hs with }, old.release_exact s.host⟩

theorem withTransaction_keeps (s : Session) (n : Nat)
    {f : Transaction → Host → Except MemoryError Unit × Transaction × Host}
    (hf : ∀ t h, Exact h (f t h).2.2) : KeepsMatched s (s.withTransaction n f).2 := by
  intro hs
  unfold withTransaction
  split
  · exact ⟨hs, .refl _⟩
  · rename_i t _
    exact ⟨{ hs with }, hf t s.host⟩

theorem dropTransaction_keeps (s : Session) (n : Nat) : KeepsMatched s (s.dropTransaction n) := by
  intro hs
  unfold Session.dropTransaction
  split
  · exact ⟨hs, .refl _⟩
  · rename_i t _
    exact ⟨{ hs with }, t.release_exact s.host⟩

/-! ## Hooks and batches -/

theorem makeHook_keeps (s : Session) (n : Nat) (p : HookPlan) :
    KeepsMatched s (s.makeHook n p) := by
  intro hs
  have hmake := Hook.ofPlan_exact p s.host
  unfold makeHook
  generalize Hook.ofPlan p s.host = made at hmake
  obtain ⟨k, h⟩ := made
  refine ⟨{ hs with }, ?_⟩
  dsimp only
  split
  · rename_i old _
    exact hmake.trans (old.release_exact h)
  · exact hmake

theorem callHook_keeps (s : Session) (n : Nat) (c : HookCall) :
    KeepsMatched s (s.callHook n c).2 := by
  intro hs
  unfold callHook
  split
  · exact ⟨hs, .refl _⟩
  · rename_i k _
    exact ⟨{ hs with }, k.call_exact c s.host⟩

theorem dropHook_keeps (s : Session) (n : Nat) : KeepsMatched s (s.dropHook n) := by
  intro hs
  unfold dropHook
  split
  · exact ⟨hs, .refl _⟩
  · rename_i k _
    exact ⟨{ hs with }, k.release_exact s.host⟩

theorem makeBatch_keeps (s : Session) (n : Nat) (ps : List HookPlan) :
    KeepsMatched s (s.makeBatch n ps) := by
  intro hs
  have hmake := Hook.ofPlans_exact ps s.host
  unfold makeBatch
  generalize Hook.ofPlans ps s.host = made at hmake
  obtain ⟨ks, h⟩ := made
  refine ⟨{ hs with }, ?_⟩
  dsimp only
  split
  · rename_i old _
    exact hmake.trans (old.release_exact h)
  · exact hmake

theorem withBatch_keeps (s : Session) (n : Nat)
    {f : Batch → Host → Except BatchError Unit × Batch × Host} (hf : ∀ b h, Exact h (f b h).2.2) :
    KeepsMatched s (s.withBatch n f).2 := by
  intro hs
  unfold withBatch
  split
  · exact ⟨hs, .refl _⟩
  · rename_i b _
    exact ⟨{ hs with }, hf b s.host⟩

theorem dropBatch_keeps (s : Session) (n : Nat) : KeepsMatched s (s.dropBatch n) := by
  intro hs
  unfold dropBatch
  split
  · exact ⟨hs, .refl _⟩
  · rename_i b _
    exact ⟨{ hs with }, b.release_exact s.host⟩

/-! ## Executable memory and the host itself -/

theorem allocate_keeps (s : Session) (n : Nat) (origin : Address) (size : Nat) :
    KeepsMatched s (s.allocate n origin size).2 := by
  intro hs
  unfold allocate
  rcases hlent : s.host.allocate origin size with ⟨_ | slot, h⟩
  · exact ⟨{ hs with }, .allocated hlent⟩
  · have hroom : (List.replicate size breakpoint).length ≤ slot.length := by
      rw [List.length_replicate, Host.length_of_allocate hlent]
    have hfill : Exact s.host (h.fill slot (List.replicate size breakpoint)) := .lend hlent hroom
    refine ⟨{ hs with }, ?_⟩
    dsimp only
    split
    · exact hfill.trans (.free ..)
    · exact hfill

theorem take_keeps (t : Turn) (s : Session) : KeepsMatched s (take t s) := by
  cases t with
  | makeHook n p => exact s.makeHook_keeps n p
  | callHook n c => exact s.callHook_keeps n c
  | dropHook n => exact s.dropHook_keeps n
  | makeBatch n ps => exact s.makeBatch_keeps n ps
  | attachBatch n => exact s.withBatch_keeps n fun b h ↦ (b.attach_calls h).exact
  | detachBatch n => exact s.withBatch_keeps n fun b h ↦ (b.detach_calls h).exact
  | dropBatch n => exact s.dropBatch_keeps n
  | allocate n origin size => exact s.allocate_keeps n origin size
  | free n =>
      intro hs
      unfold take free
      dsimp only
      split
      · exact ⟨hs, .refl _⟩
      · exact ⟨{ hs with }, .free ..⟩
  | poke a bs => exact fun hs ↦ ⟨{ hs with }, .poke s.host a bs⟩
  | protect page q =>
      intro hs
      refine ⟨{ hs with }, ?_⟩
      unfold take protect onHost
      dsimp only
      split
      · exact .aside rfl rfl rfl
      · exact .refl _

/-! ## Ends -/

theorem renew_keeps (s : Session) : KeepsMatched s s.renew := by
  intro hs
  refine ⟨{ hs with manager := ⟨?_, List.forall_mem_nil _⟩ }, s.manager.release_exact s.host⟩
  rintro r ⟨⟩
  exact hs.registry

/-- Things that end one after the other. -/
theorem fold_exact {α : Type} {f : α → Host → Host} (hf : ∀ x h, Exact h (f x h)) (shelf : Shelf α)
    (h : Host) : Exact h (shelf.foldl (fun h e ↦ f e.2 h) h) := by
  induction shelf generalizing h with
  | nil => exact .refl h
  | cons e shelf ih => exact (hf e.2 h).trans (ih _)

/-- Whatever is in place at the end is taken back by even writes, too. -/
theorem close_keeps (s : Session) : KeepsMatched s s.close := by
  intro hs
  refine ⟨⟨hs.manager, hs.registry⟩, ?_⟩
  have htransactions := fold_exact Transaction.release_exact s.transactions
  have hbatches := fold_exact Batch.release_exact s.batches
  have hhooks := fold_exact Hook.release_exact s.hooks
  have hslots := fold_exact (fun slot h ↦ Exact.free h slot) s.slots
  exact ((((htransactions s.host).trans (hbatches _)).trans (hhooks _)).trans (hslots _)).trans
    (s.manager.release_exact _)

/-! ## Whole runs -/

theorem act_keeps (a : Action) (s : Session) : KeepsMatched s (act a s) := by
  cases a with
  | turn t => exact take_keeps t s
  | capture n a new => exact s.capture_keeps n a new
  | apply n => exact s.withRecord_keeps n UndoRecord.apply_exact
  | restore n => exact s.withRecord_keeps n UndoRecord.restore_exact
  | makeTransaction n => exact s.putTransaction_keeps n .empty
  | write n w => exact s.withTransaction_keeps n fun t h ↦ t.perform_exact w h
  | commit n => exact s.withTransaction_keeps n fun _ h ↦ .refl h
  | rollback n => exact s.withTransaction_keeps n Transaction.rollback_exact
  | dropTransaction n => exact s.dropTransaction_keeps n
  | manage t =>
      intro hs
      obtain ⟨hm, hexact⟩ := Manager.keeps_take t hs.manager s.host
      exact ⟨{ hs with manager := hm }, hexact⟩
  | renew => exact s.renew_keeps
  | close => exact s.close_keeps

theorem enact_keeps (as : List Action) (s : Session) : KeepsMatched s (enact as s) := by
  induction as generalizing s with
  | nil => exact .refl s
  | cons a as ih =>
      intro hs
      obtain ⟨hs₁, hfirst⟩ := act_keeps a s hs
      obtain ⟨hs', hrest⟩ := ih (act a s) hs₁
      exact ⟨hs', hfirst.trans hrest⟩

theorem matched_begin (host : Host) (first count : Nat) {registry : Registry} (version : Version)
    (image : Image) (hregistry : ∀ e ∈ registry, Setting.Unwritten e.body.settings) :
    (begin host first count registry version image).Matched where
  manager := by
    refine ⟨?_, List.forall_mem_nil _⟩
    rintro r ⟨⟩
    exact hregistry
  registry := hregistry

/-- A record that is captured, whether anything comes to hold it or not, has what is to be written
on one side and as many bytes of memory on the other. Whatever happens in a session, the sides of
each record that something holds are of equal length, so that only what memory holds and permits
decides whether it can be applied or restored, and restoring it stays within the range that was
captured. The record of a setting is as long as the width of its binding, and so is every value that
may replace the one in memory. And whichever writes were made on the whole way from the first host
to the last, with success or not, none was asked to put more or fewer bytes than it expected to
find: no such write was noted. -/
theorem records_matched (host : Host) (first count : Nat) {registry : Registry} (version : Version)
    (image : Image) (hregistry : ∀ e ∈ registry, Setting.Unwritten e.body.settings)
    (as : List Action) :
    let s := enact as (begin host first count registry version image)
    (∀ m a new r, UndoRecord.capture m a new = .ok r →
        r.address = a ∧ r.before = m.bytes a new.length ∧ r.after = new ∧
          r.before.length = r.after.length) ∧
      (∀ r ∈ s.held,
        r.before.length = r.after.length ∧
          ∀ h : Host,
            ((r.apply h).1 = .ok () ↔ h.memory.Holds r.address r.before) ∧
              ((r.restore h).1 = .ok () ↔ h.memory.Holds r.address r.after) ∧
              ∀ x : Nat, ¬ (r.address ≤ x ∧ x < r.address + r.after.length) →
                (r.restore h).2.memory.byte x = h.memory.byte x ∧
                  (r.restoreQuietly h).2.memory.byte x = h.memory.byte x) ∧
      (∀ p ∈ s.manager.patches, ∀ x ∈ p.settings, ∀ r, x.live = some r →
        ∃ b, x.binding = some b ∧ r.before.length = b.width.length ∧
          r.after.length = b.width.length ∧
          ∀ v, (b.width.encode v).length = r.after.length ∧
            ∀ h : Host, (∃ q, (r.retarget (b.width.encode v) h).1 = .ok q) ↔
              h.memory.Holds r.address r.after) ∧
      Exact host s.host ∧ s.host.uneven = host.uneven := by
  intro s
  obtain ⟨hs, hexact⟩ := enact_keeps as _ (matched_begin host first count version image hregistry)
  refine ⟨fun m a new r hcapture ↦ ?_, fun r _ ↦ ⟨r.length_eq, fun h ↦ ?_⟩,
    fun p hp x hx r hlive ↦ ?_, hexact, hexact.uneven_eq⟩
  · cases UndoRecord.capture_eq_ok hcapture
    exact ⟨rfl, rfl, rfl, UndoRecord.length_eq _⟩
  · exact ⟨r.apply_ok_iff h, r.restore_ok_iff h, fun x hx ↦ r.byte_restore h hx⟩
  · obtain ⟨b, hbinding, hlength⟩ := hs.manager.patches p hp x hx r hlive
    refine ⟨b, hbinding, r.length_eq.trans hlength, hlength, fun v ↦ ?_⟩
    have hencode : (b.width.encode v).length = r.after.length := by
      rw [Setting.Width.length_encode, hlength]
    exact ⟨hencode, UndoRecord.retarget_ok_iff hencode.symm⟩

def movable : Registry :=
  [⟨.named "A", .ofProgram [(Setting.int "Level" 3 0 9).bind ⟨.deferred 1, .u32⟩] .done⟩]

/-- Everything is used that holds a record. The setting is written, changed and moved. -/
def Action.variety : List Action :=
  [.capture 0 0x1000000100 [1, 2, 3], .apply 0, .makeTransaction 0,
    .write 0 (.nops 0x1000000200 5), .turn (.makeHook 0 (.inline "f" 0x1000000000 0x2000 0)),
    .turn (.callHook 0 .prepare), .turn (.callHook 0 .attach), .manage .instantiate,
    .manage (.place 1 (some 0x1000000300)), .manage (.enable "A"),
    .manage (.setSetting "A" "Level" (.int 5)), .manage (.place 1 (some 0x1000000400)),
    .manage (.setSetting "A" "Level" (.int 7)), .restore 0]

theorem records_matched_variety :
    let s := enact Action.variety (begin padded 0 0 movable .unknown ⟨0, 0⟩)
    s.held.map (fun r ↦ r.after.length) = [3, 5, 14, 4] ∧
      s.held.map (fun r ↦ r.before.length) = [3, 5, 14, 4] ∧
      s.held.getLast? = some ⟨0x1000000400, [0, 0, 0, 0], [7, 0, 0, 0], rfl⟩ ∧
      s.host.uneven = [] := by
  intro s
  have hregistry : ∀ e ∈ movable, Setting.Unwritten e.body.settings := by
    refine List.forall_mem_singleton.mpr (List.forall_mem_singleton.mpr ?_)
    decide
  obtain ⟨-, hheld, -, -, huneven⟩ :=
    records_matched padded 0 0 .unknown ⟨0, 0⟩ hregistry Action.variety
  have hafter : s.held.map (fun r ↦ r.after.length) = [3, 5, 14, 4] := by decide +kernel
  refine ⟨hafter, ?_, by decide +kernel, huneven⟩
  rw [← hafter]
  exact List.map_congr_left fun r hr ↦ (hheld r hr).1

end Session

end HotPatch
