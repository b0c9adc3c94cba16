import HotPatch.Proofs.Hook.Range
import HotPatch.Proofs.Session.Custody

/-!
# Inline hooks in a session

Inline hooks are made, called one by one and in batches, in any order and with any failures, while
the host writes to its own memory and changes what its pages permit. The passage of each hook leads
to its trampoline exactly while the hook is attached, and the range of a prepared hook holds what it
should unless something else comes over it.
-/

namespace HotPatch

open Host Trampoline

/-! ## How things unfold -/

namespace HookPlan

def passage? : HookPlan → Option Nat
  | .inline _ _ _ passage => some passage
  | .slot .. | .scripted _ => none

def Inline (p : HookPlan) : Prop := p.passage?.isSome

instance (p : HookPlan) : Decidable p.Inline := inferInstanceAs (Decidable (_ = true))

end HookPlan

namespace Hook

variable {h h' : Host} {ks ks' : List Hook} {new : List Nat}

/-- Inline hooks with the passages `new` are made, and the hooks are called, while the host writes
to its own memory and changes what its pages permit. -/
inductive Unfolds : Host → List Hook → List Nat → Host → List Hook → Prop
  | calls {h h' : Host} {ks ks' : List Hook} (a : Calls h ks h' ks') : Unfolds h ks [] h' ks'
  | made (name : String) (target detour : Address) (passage : Nat) (h : Host) (ks : List Hook) :
      Unfolds h ks [passage] (h.setPassage passage target)
        (.inline ⟨name, target, detour, passage, .fresh⟩ :: ks)
  | poke (a : Address) (bs : List UInt8) (h : Host) (ks : List Hook) :
      Unfolds h ks [] (h.poke a bs) ks
  | protect {n : Nat} {p : Page} (q : Protection) {h : Host} (hpage : h.memory.page n = some p)
      (ks : List Hook) :
      Unfolds h ks [] (h.withMemory (h.memory.setPage n (some { p with protection := q }))) ks
  | trans {h h₁ h' : Host} {ks ks₁ ks' : List Hook} {before after : List Nat}
      (a : Unfolds h ks before h₁ ks₁) (b : Unfolds h₁ ks₁ after h' ks') :
      Unfolds h ks (before ++ after) h' ks'

def inline? : Hook → Option InlineHook
  | .inline k => some k
  | .slot _ | .scripted _ => none

theorem inline_mem_iff {i : InlineHook} : .inline i ∈ ks ↔ i ∈ ks.filterMap inline? := by
  refine ⟨fun hi ↦ List.mem_filterMap.mpr ⟨_, hi, rfl⟩, fun hi ↦ ?_⟩
  obtain ⟨k, hk, heq⟩ := List.mem_filterMap.mp hi
  cases k with
  | inline k =>
      cases heq
      exact hk
  | slot => cases heq
  | scripted => cases heq

namespace Unfolds

theorem refl (h : Host) (ks : List Hook) : Unfolds h ks [] h ks := .calls (.refl h ks)

theorem reorder {ls ls' : List Hook} (a : Unfolds h ks new h' ks') (hbefore : ls.Perm ks)
    (hafter : ks'.Perm ls') : Unfolds h ls new h' ls' := by
  have hall := (Unfolds.calls (.perm hbefore)).trans (a.trans (.calls (.perm (h := h') hafter)))
  rwa [List.append_nil, List.nil_append] at hall

theorem frame (a : Unfolds h ks new h' ks') (ls : List Hook) :
    Unfolds h (ks ++ ls) new h' (ks' ++ ls) := by
  induction a with
  | calls a => exact .calls (a.frame ls)
  | made name target detour passage h ks => exact .made name target detour passage h (ks ++ ls)
  | poke a bs h ks => exact .poke a bs h (ks ++ ls)
  | protect q hpage ks => exact .protect q hpage (ks ++ ls)
  | trans _ _ ih₁ ih₂ => exact ih₁.trans ih₂

theorem frame_left (a : Unfolds h ks new h' ks') (ls : List Hook) :
    Unfolds h (ls ++ ks) new h' (ls ++ ks') :=
  (a.frame ls).reorder List.perm_append_comm List.perm_append_comm

end Unfolds

theorem ofPlans_unfolds {ps : List HookPlan} (hps : ∀ p ∈ ps, p.Inline) (h : Host) :
    Unfolds h [] (ps.filterMap HookPlan.passage?) (ofPlans ps h).2 (ofPlans ps h).1 := by
  induction ps generalizing h with
  | nil => exact .refl h []
  | cons p ps ih =>
      obtain ⟨hp, hrest⟩ := List.forall_mem_cons.mp hps
      cases p with
      | inline name target detour passage =>
          have hfirst := Unfolds.made name target detour passage h []
          exact hfirst.trans ((ih hrest (h.setPassage passage target)).frame_left [_])
      | slot => cases hp
      | scripted => cases hp

/-- No other hook has the passage of a new one. -/
theorem Served.made (hs : Served h ks) {passage : Nat} (hnew : passage ∉ ks.filterMap passage?)
    (name : String) (target detour : Address) :
    Served (h.setPassage passage target)
      (.inline ⟨name, target, detour, passage, .fresh⟩ :: ks) where
  sound := hs.sound
  leads := by
    refine List.forall_mem_cons.mpr ⟨⟨_, rfl, if_pos rfl⟩, fun k hk ↦ ?_⟩
    obtain ⟨i, rfl, hpassage⟩ := hs.leads k hk
    refine ⟨i, rfl, (if_neg fun heq ↦ hnew ?_).trans hpassage⟩
    exact heq ▸ List.mem_filterMap.mpr ⟨_, hk, rfl⟩
  distinct := List.nodup_cons.mpr ⟨hnew, hs.distinct⟩

variable {q : Nat} {d : List Dealing} {w : List UndoRecord}

theorem Watched.made (hw : Watched q d w h ks) (name : String) (target detour : Address)
    (passage : Nat) :
    Watched q d w (h.setPassage passage target)
      (.inline ⟨name, target, detour, passage, .fresh⟩ :: ks) where
  dealings := hw.dealings
  ownWrites := hw.ownWrites
  kept k work hk hq hwork := by
    rcases List.mem_cons.mp hk with heq | hk
    · cases heq
      cases hwork
    · have hold := hw.kept k work hk hq hwork
      refine { hold with holds := fun hl ↦ hold.holds { hl with hooks := fun i v hi ↦ ?_ } }
      exact hl.hooks i v (List.mem_cons_of_mem _ hi)

/-- What the host writes itself is listed, and nothing is said of a range to which it did. -/
theorem Watched.poke (hw : Watched q d w h ks) (a : Address) (bs : List UInt8) :
    Watched q d w (h.poke a bs) ks where
  dealings := hw.dealings
  ownWrites := hw.ownWrites.trans (List.suffix_cons ..)
  kept k work hk hq hwork := by
    have hold := hw.kept k work hk hq hwork
    refine { hold with holds := fun hl ↦ ?_ }
    have hbefore : h.Leaves ks k.passage d w work.record work.trampoline :=
      { hl with
        writes := fun newer hsplit own hown ↦
          hl.writes (_ :: newer) (congrArg _ hsplit) own (List.mem_cons_of_mem _ hown) }
    obtain ⟨newer, hnewer⟩ := hw.ownWrites
    have hdisjoint := hl.writes (_ :: newer) (congrArg _ hnewer.symm) _ (List.mem_cons_self ..)
    rw [← hold.holds hbefore]
    refine Memory.bytes_congr fun x hlow hhigh ↦ Memory.byte_store_of_not_mem ?_
    exact hdisjoint x ⟨hlow, work.record.length_eq ▸ hhigh⟩

theorem Watched.protect (hw : Watched q d w h ks) {n : Nat} {p : Page} (r : Protection)
    (_ : h.memory.page n = some p) :
    Watched q d w (h.withMemory (h.memory.setPage n (some { p with protection := r }))) ks where
  dealings := hw.dealings
  ownWrites := hw.ownWrites
  kept k work hk hq hwork := by
    have hold := hw.kept k work hk hq hwork
    refine { hold with mapped := fun x hx ↦ ?_, holds := fun hl ↦ hold.holds { hl with } }
    have hx' := hold.mapped x hx
    rw [memory_withMemory, Memory.Mapped, Memory.page_setPage]
    split
    · rfl
    · exact hx'

/-- As long as no passage is given twice, each of them leads where it should, and what a hook was
prepared for is kept. -/
theorem Unfolds.served (a : Unfolds h ks new h' ks') (hs : Served h ks)
    (hnew : (new ++ ks.filterMap passage?).Nodup) :
    Served h' ks' ∧ (ks'.filterMap passage?).Perm (new ++ ks.filterMap passage?) ∧
      ∀ q d w, Watched q d w h ks → Watched q d w h' ks' := by
  induction a with
  | calls a =>
      obtain ⟨hs', hperm⟩ := a.served hs
      exact ⟨hs', hperm, fun _ _ _ hw ↦ a.watched hs hw⟩
  | made name target detour passage h ks =>
      exact ⟨hs.made (List.nodup_cons.mp hnew).1 name target detour, .refl _,
        fun _ _ _ hw ↦ hw.made name target detour passage⟩
  | poke a bs h ks =>
      exact ⟨⟨hs.sound, hs.leads, hs.distinct⟩, .refl _, fun _ _ _ hw ↦ hw.poke a bs⟩
  | protect r hpage ks =>
      exact ⟨⟨hs.sound, hs.leads, hs.distinct⟩, .refl _, fun _ _ _ hw ↦ hw.protect r hpage⟩
  | @trans h h₁ h' ks ks₁ ks' before after _ _ ih₁ ih₂ =>
      have hswap : (before ++ after ++ ks.filterMap passage?).Perm
          (after ++ (before ++ ks.filterMap passage?)) := by
        rw [← List.append_assoc]
        exact List.perm_append_comm.append_right _
      have hdistinct := hswap.nodup_iff.mp hnew
      obtain ⟨hs₁, hperm₁, hwatch₁⟩ := ih₁ hs hdistinct.of_append_right
      have hmiddle := hperm₁.append_left after
      obtain ⟨hs', hperm₂, hwatch₂⟩ := ih₂ hs₁ (hmiddle.nodup_iff.mpr hdistinct)
      exact ⟨hs', (hperm₂.trans hmiddle).trans hswap.symm,
        fun q d w hw ↦ hwatch₂ q d w (hwatch₁ q d w hw)⟩

end Hook

open Hook

/-! ## On the shelves -/

namespace Shelf

variable {α : Type} {f : α → List Hook} {n : Nat} {x y : α} {s : Shelf α} {h h' : Host}
  {new : List Nat}

/-- The shelf is in order, and only the numbers in `ns` are taken. -/
structure Placed (ns : List Nat) (s : Shelf α) : Prop where
  ascending : s.Ascending
  numbers : ∀ e ∈ s, e.1 ∈ ns

namespace Placed

variable {ns ns' : List Nat}

theorem mono (hp : s.Placed ns) (hsub : ns ⊆ ns') : s.Placed ns' :=
  ⟨hp.ascending, fun e he ↦ hsub (hp.numbers e he)⟩

theorem put (hp : s.Placed ns) (hn : n ∈ ns) (x : α) : (s.put n x).Placed ns := by
  refine ⟨ascending_put hp.ascending n x, fun e he ↦ ?_⟩
  rcases mem_put he with rfl | he
  · exact hn
  · exact hp.numbers e he

theorem mem (hp : s.Placed ns) (hget : s.get? n = some x) : n ∈ ns :=
  hp.numbers _ (mem_of_get? hget)

theorem get?_eq_none (hp : s.Placed ns) (hn : n ∉ ns) : s.get? n = none := by
  cases hget : s.get? n with
  | none => rfl
  | some x => exact absurd (hp.mem hget) hn

end Placed

theorem unfolds_put (hs : s.Ascending) (hget : s.get? n = some x)
    (a : Unfolds h (f x) new h' (f y)) :
    Unfolds h (gather f s) new h' (gather f (s.put n y)) :=
  (a.frame (gather f (s.remove n))).reorder (gather_of_get? hs hget) (gather_put hs n y).symm

theorem unfolds_new (hs : s.Ascending) (hget : s.get? n = none) (a : Unfolds h [] new h' (f y)) :
    Unfolds h (gather f s) new h' (gather f (s.put n y)) := by
  have hput := gather_put (f := f) hs n y
  rw [get?_eq_none hget] at hput
  exact (a.frame (gather f s)).reorder (.refl _) hput.symm

end Shelf

namespace Session

variable {s : Session} {t : Turn} {ts us : List Turn}

namespace Turn

/-- What may happen while nobody gives up a hook. -/
def Hooking : Turn → Prop
  | .makeHook _ p => p.Inline
  | .makeBatch _ ps => ∀ p ∈ ps, p.Inline
  | .callHook .. | .attachBatch _ | .detachBatch _ | .poke .. | .protect .. => True
  | .dropHook _ | .dropBatch _ | .allocate .. | .free _ => False

def passages : Turn → List Nat
  | .makeHook _ p => [p].filterMap HookPlan.passage?
  | .makeBatch _ ps => ps.filterMap HookPlan.passage?
  | _ => []

def hook? : Turn → Option Nat
  | .makeHook n _ => some n
  | _ => none

def batch? : Turn → Option Nat
  | .makeBatch n _ => some n
  | _ => none

/-- Inline hooks come and none goes; each has a passage and a place of its own. -/
structure Distinct (ts : List Turn) : Prop where
  hooking : ∀ t ∈ ts, t.Hooking
  passages : (ts.flatMap passages).Nodup
  hooks : (ts.filterMap hook?).Nodup
  batches : (ts.filterMap batch?).Nodup

theorem Distinct.of_append (hd : Distinct (ts ++ us)) : Distinct ts where
  hooking t ht := hd.hooking t (List.mem_append_left us ht)
  passages := by
    have hall := hd.passages
    rw [List.flatMap_append] at hall
    exact hall.of_append_left
  hooks := by
    have hall := hd.hooks
    rw [List.filterMap_append] at hall
    exact hall.of_append_left
  batches := by
    have hall := hd.batches
    rw [List.filterMap_append] at hall
    exact hall.of_append_left

end Turn

structure Placed (ts : List Turn) (s : Session) : Prop where
  hooks : s.hooks.Placed (ts.filterMap Turn.hook?)
  batches : s.batches.Placed (ts.filterMap Turn.batch?)

namespace Placed

theorem mono (hp : Placed ts s) (us : List Turn) : Placed (ts ++ us) s where
  hooks := hp.hooks.mono (List.filterMap_append ▸ List.subset_append_left ..)
  batches := hp.batches.mono (List.filterMap_append ▸ List.subset_append_left ..)

theorem callHook (hp : Placed ts s) (n : Nat) (c : HookCall) :
    Placed ts (s.callHook n c).2 ∧
      Unfolds s.host s.allHooks [] (s.callHook n c).2.host (s.callHook n c).2.allHooks := by
  unfold Session.callHook
  split
  · exact ⟨hp, .refl ..⟩
  · rename_i k hget
    have hput := Shelf.unfolds_put (f := fun k ↦ [k]) hp.hooks.ascending hget
      (.calls (.call k c s.host []))
    exact ⟨{ hp with hooks := hp.hooks.put (hp.hooks.mem hget) _ }, hput.frame _⟩

theorem withBatch (hp : Placed ts s) (n : Nat)
    {f : Batch → Host → Except BatchError Unit × Batch × Host}
    (hf : ∀ b h, Calls h b.hooks (f b h).2.2 (f b h).2.1.hooks) :
    Placed ts (s.withBatch n f).2 ∧
      Unfolds s.host s.allHooks [] (s.withBatch n f).2.host (s.withBatch n f).2.allHooks := by
  unfold Session.withBatch
  split
  · exact ⟨hp, .refl ..⟩
  · rename_i b hget
    have hput := Shelf.unfolds_put (f := Batch.hooks) hp.batches.ascending hget
      (.calls (hf b s.host))
    exact ⟨{ hp with batches := hp.batches.put (hp.batches.mem hget) _ }, hput.frame_left _⟩

theorem makeHook (hp : Placed ts s) {n : Nat} {p : HookPlan} (hplan : p.Inline)
    (hget : s.hooks.get? n = none) (hn : n ∈ ts.filterMap Turn.hook?) :
    Placed ts (s.makeHook n p) ∧
      Unfolds s.host s.allHooks ([p].filterMap HookPlan.passage?) (s.makeHook n p).host
        (s.makeHook n p).allHooks := by
  have hmade := ofPlans_unfolds (List.forall_mem_singleton.mpr hplan) s.host
  have hput := Shelf.unfolds_new (f := fun k ↦ [k]) hp.hooks.ascending hget hmade
  simp only [Session.makeHook, hget]
  exact ⟨{ hp with hooks := hp.hooks.put hn _ }, hput.frame _⟩

theorem makeBatch (hp : Placed ts s) {n : Nat} {ps : List HookPlan} (hplans : ∀ p ∈ ps, p.Inline)
    (hget : s.batches.get? n = none) (hn : n ∈ ts.filterMap Turn.batch?) :
    Placed ts (s.makeBatch n ps) ∧
      Unfolds s.host s.allHooks (ps.filterMap HookPlan.passage?) (s.makeBatch n ps).host
        (s.makeBatch n ps).allHooks := by
  have hput := Shelf.unfolds_new (f := Batch.hooks) (y := .ofHooks (ofPlans ps s.host).1)
    hp.batches.ascending hget (ofPlans_unfolds hplans s.host)
  simp only [Session.makeBatch, hget]
  exact ⟨{ hp with batches := hp.batches.put hn _ }, hput.frame_left _⟩

/-- One more turn. -/
theorem take (hp : Placed ts s) (hd : Turn.Distinct (ts ++ [t])) :
    Placed (ts ++ [t]) (take t s) ∧
      Unfolds s.host s.allHooks t.passages (Session.take t s).host (Session.take t s).allHooks := by
  have ht : t.Hooking := hd.hooking t (List.mem_append_right ts (List.mem_singleton_self t))
  have hhooks := hd.hooks
  have hbatches := hd.batches
  rw [List.filterMap_append] at hhooks hbatches
  have hp' := hp.mono [t]
  cases t with
  | makeHook n p =>
      have hnew := hp.hooks.get?_eq_none fun hn ↦
        List.disjoint_of_nodup_append hhooks hn (List.mem_singleton_self n)
      refine hp'.makeHook ht hnew ?_
      rw [List.filterMap_append]
      exact List.mem_append_right _ (List.mem_singleton_self n)
  | makeBatch n ps =>
      have hnew := hp.batches.get?_eq_none fun hn ↦
        List.disjoint_of_nodup_append hbatches hn (List.mem_singleton_self n)
      refine hp'.makeBatch ht hnew ?_
      rw [List.filterMap_append]
      exact List.mem_append_right _ (List.mem_singleton_self n)
  | callHook n c => exact hp'.callHook n c
  | attachBatch n => exact hp'.withBatch n Batch.attach_calls
  | detachBatch n => exact hp'.withBatch n Batch.detach_calls
  | poke a bs => exact ⟨⟨hp'.hooks, hp'.batches⟩, .poke a bs s.host s.allHooks⟩
  | protect page q =>
      refine ⟨⟨hp'.hooks, hp'.batches⟩, ?_⟩
      unfold Session.take Session.protect
      dsimp only [onHost]
      split
      · rename_i hpage
        exact .protect q hpage s.allHooks
      · exact .refl ..
  | dropHook n => cases ht
  | dropBatch n => cases ht
  | allocate n origin size => cases ht
  | free n => cases ht

/-- Any number of turns. -/
theorem play (hp : Placed ts s) (hd : Turn.Distinct (ts ++ us)) :
    Placed (ts ++ us) (play us s) ∧
      Unfolds s.host s.allHooks (us.flatMap Turn.passages) (Session.play us s).host
        (Session.play us s).allHooks := by
  induction us generalizing ts s with
  | nil => exact ⟨hp.mono [], .refl ..⟩
  | cons t us ih =>
      rw [List.append_cons] at hd ⊢
      obtain ⟨hp₁, hfirst⟩ := hp.take hd.of_append
      obtain ⟨hp', hrest⟩ := ih hp₁ hd
      exact ⟨hp', hfirst.trans hrest⟩

end Placed

/-! ## Where passages lead and what ranges hold -/

/-- Inline hooks with passages of their own are made and called, alone and in batches, while the
host writes to its own memory and changes its protections. Whatever fails, each hook's passage leads
to its trampoline while the hook is attached and to its target otherwise. If a hook was prepared
after some of the turns, its range holds the redirect while it is attached and what the preparation
captured otherwise, unless another hook's range overlaps it, or something that the host wrote since,
or memory that the pool lent since. -/
theorem passages_and_ranges {host : Host} (hpool : host.pool.Sound) (first count : Nat)
    (registry : Registry) (version : Version) (image : Image) {s₁ : Session}
    (hd : Turn.Distinct (ts ++ us))
    (hearlier : Session.play ts (begin host first count registry version image) = s₁)
    (hlater : Session.play us s₁ = s) :
    (s.allHooks.filterMap Hook.passage?).Perm ((ts ++ us).flatMap Turn.passages) ∧
      (∀ k ∈ s.allHooks, ∃ i, k = .inline i ∧ s.host.passages i.passage =
        match i.stage with
        | .active work => work.trampoline.address
        | .fresh | .ready _ => i.target) ∧
      ∀ i work, .inline i ∈ s.allHooks → i.stage.work? = some work →
        (∀ j, .inline j ∈ s₁.allHooks → j.passage = i.passage → j.stage = .fresh) →
        s.host.Leaves s.allHooks i.passage s₁.host.dealings s₁.host.ownWrites work.record
          work.trampoline →
        work.record.address = i.target ∧
          work.record.after = Prologue.redirect i.detour work.record.before.length ∧
          s.host.memory.bytes i.target work.record.before.length =
            if i.stage.isActive then work.record.after else work.record.before := by
  have hnone : Placed [] (begin host first count registry version image) :=
    ⟨⟨.nil, nofun⟩, ⟨.nil, nofun⟩⟩
  have hserved : Served host [] := ⟨hpool, nofun, .nil⟩
  have hdistinct := hd.passages
  rw [List.flatMap_append] at hdistinct ⊢
  obtain ⟨hp₁, hto⟩ := hnone.play hd.of_append
  obtain ⟨-, hon⟩ := hp₁.play hd
  rw [hearlier] at hto hon
  rw [hlater] at hon
  replace hto : Unfolds host [] (ts.flatMap Turn.passages) s₁.host s₁.allHooks := hto
  have hbegun : (ts.flatMap Turn.passages ++ [].filterMap Hook.passage?).Nodup := by
    rw [List.filterMap_nil, List.append_nil]
    exact hdistinct.of_append_left
  obtain ⟨hserved₁, hperm₁, -⟩ := hto.served hserved hbegun
  rw [List.filterMap_nil, List.append_nil] at hperm₁
  have hall := (hperm₁.append_left (us.flatMap Turn.passages)).trans List.perm_append_comm
  obtain ⟨hserved', hperm, hwatched⟩ := hon.served hserved₁ (hall.nodup_iff.mpr hdistinct)
  refine ⟨hperm.trans hall, hserved'.leads, fun i work hi hwork hfresh hl ↦ ?_⟩
  have hearly : Watched i.passage s₁.host.dealings s₁.host.ownWrites s₁.host s₁.allHooks := by
    refine ⟨List.suffix_rfl, List.suffix_rfl, fun j v hj hq hv ↦ ?_⟩
    simp [hfresh j hj hq, Stage.work?] at hv
  have hkept := (hwatched _ _ _ hearly).kept i work hi rfl hwork
  refine ⟨hkept.address, hkept.after, ?_⟩
  rw [← hkept.address]
  exact hkept.holds hl

namespace Turn

def makeThree : List Turn :=
  [.makeHook 0 (.inline "f" 0x1000000000 0x2000 0),
    .makeBatch 0 [.inline "g" 0x1000000010 0x3000 1, .inline "h" 0x1000000020 0x4000 2],
    .poke 0x1000000004 [0x90]]

/-- All of them are attached, then the host writes over the redirect of one of the batch, so that
the batch cannot be detached. -/
def spoil : List Turn :=
  [.callHook 0 .prepare, .callHook 0 .attach, .attachBatch 0, .poke 0x1000000010 [0xCC],
    .detachBatch 0, .protect 0x1000000 ⟨true, false, true⟩]

end Turn

def three : Session := play Turn.makeThree (begin padded 0 0 [] .unknown ⟨0, 0⟩)

def spoiled : Session := play Turn.spoil three

/-- The hook that stands alone is not affected by what becomes of the batch. -/
theorem passages_and_ranges_spoiled : spoiled.host.passages 0 = 0x1000001000 ∧
    spoiled.host.memory.bytes 0x1000000000 14 = Prologue.redirect 0x2000 14 := by
  have hd : Turn.Distinct (Turn.makeThree ++ Turn.spoil) :=
    ⟨by simp [Turn.makeThree, Turn.spoil, Turn.Hooking, HookPlan.Inline, HookPlan.passage?],
      by decide, by decide, by decide⟩
  have hthree : play Turn.makeThree (begin padded 0 0 [] .unknown ⟨0, 0⟩) = three := rfl
  have hspoiled : play Turn.spoil three = spoiled := rfl
  obtain ⟨-, hleads, hranges⟩ :=
    passages_and_ranges Pool.sound_empty 0 0 [] .unknown ⟨0, 0⟩ hd hthree hspoiled
  let record : UndoRecord :=
    ⟨0x1000000000, List.replicate 14 0x90, Prologue.redirect 0x2000 14, rfl⟩
  let work : Redirect := ⟨⟨0x1000001000, 0, 434⟩, record, true⟩
  have hmem : .inline ⟨"f", 0x1000000000, 0x2000, 0, .active work⟩ ∈ spoiled.allHooks := by
    rw [inline_mem_iff]
    decide +kernel
  have hfresh : ∀ j ∈ three.allHooks.filterMap inline?, j.stage = .fresh := by decide +kernel
  have hothers : ∀ j ∈ spoiled.allHooks.filterMap inline?, j.passage ≠ 0 →
      ∀ v ∈ j.stage.work?, 0x1000000000 + 14 ≤ v.record.address := by decide +kernel
  have hwrites : spoiled.host.ownWrites =
      [⟨0x1000000010, [0xFF], [0xCC], rfl⟩] ++ three.host.ownWrites := by decide +kernel
  have hdealings : ∃ a b c : Slot, spoiled.host.dealings =
      [.published c, .published c, .published b, .lent c, .lent b, .published a, .lent a] ∧
      ∀ slot ∈ [a, b, c], 0x1000000000 + 14 ≤ slot.address :=
    ⟨⟨0x1000001000, 0, 434⟩, ⟨0x1000001000, 434, 434⟩, ⟨0x1000001000, 868, 224⟩, by decide +kernel⟩
  obtain ⟨a, b, c, hdealings, hslots⟩ := hdealings
  have hl : spoiled.host.Leaves spoiled.allHooks 0 three.host.dealings three.host.ownWrites record
      ⟨0x1000001000, 0, 434⟩ := by
    refine ⟨fun k v hk hne hv ↦ ?_, fun newer hsplit own hown ↦ ?_,
      fun newer between hsplit other hother ↦ ?_⟩
    · exact UndoRecord.disjoint_of_le (.inl (hothers k (inline_mem_iff.mp hk) hne v hv))
    · rw [hwrites] at hsplit
      obtain rfl := List.append_cancel_right hsplit
      obtain rfl := List.mem_singleton.mp hown
      exact UndoRecord.disjoint_of_le (.inl (by decide))
    · have hmem : .lent other ∈ spoiled.host.dealings := by
        rw [hsplit]
        exact List.mem_append_left _ (List.mem_append_left _ hother)
      have hother : other ∈ [a, b, c] := by
        rw [hdealings] at hmem
        simp only [List.mem_cons, List.not_mem_nil, reduceCtorEq, Dealing.lent.injEq, or_false,
          false_or] at hmem ⊢
        tauto
      intro x hx hholds
      exact Nat.not_le.mpr hx.2 (Nat.le_trans (hslots other hother) hholds.1)
  obtain ⟨i, heq, hleads⟩ := hleads _ hmem
  cases heq
  obtain ⟨-, -, hrange⟩ := hranges _ work hmem rfl
    (fun j hj _ ↦ hfresh j (inline_mem_iff.mp hj)) hl
  exact ⟨hleads, hrange⟩

namespace Turn

/-- A hook is prepared, and the host writes code of its own behind the trampoline, where the pool
has room left. -/
def writeBehind : List Turn :=
  [.makeHook 0 (.inline "f" 0x1000000000 0x2000 0), .callHook 0 .prepare,
    .makeHook 1 (.inline "g" 0x1000001364 0x3000 1),
    .poke 0x1000001364 (List.replicate 28 0x55)]

def hookBehind : List Turn :=
  [.callHook 1 .prepare, .makeHook 2 (.inline "h" 0x1000000040 0x4000 2), .callHook 2 .prepare]

end Turn

def paddedLong : Host :=
  .ofMemory ((Memory.empty.map 0x1000000 1 .all).store 0x1000000000 (List.replicate 128 0x90))

def behind : Session := play Turn.writeBehind (begin paddedLong 0 0 [] .unknown ⟨0, 0⟩)

def lentOver : Session := play Turn.hookBehind behind

/-- Memory that the pool lends may lie over the range of a hook, which then holds neither the
redirect nor what was captured, although no other hook has that range and the host does not write to
it. -/
theorem range_lent_over : Turn.Distinct (Turn.writeBehind ++ Turn.hookBehind) ∧
    ¬ ∀ i work, .inline i ∈ lentOver.allHooks → i.stage.work? = some work →
      (∀ j, .inline j ∈ behind.allHooks → j.passage = i.passage → j.stage = .fresh) →
      (∀ k v, .inline k ∈ lentOver.allHooks → k.passage ≠ i.passage → k.stage.work? = some v →
        work.record.Disjoint v.record) →
      (∀ newer, lentOver.host.ownWrites = newer ++ behind.host.ownWrites → ∀ own ∈ newer,
        work.record.Disjoint own) →
      lentOver.host.memory.bytes i.target work.record.before.length =
        if i.stage.isActive then work.record.after else work.record.before := by
  refine ⟨⟨?_, by decide, by decide, by decide⟩, fun hall ↦ ?_⟩
  · simp [Turn.writeBehind, Turn.hookBehind, Turn.Hooking, HookPlan.Inline, HookPlan.passage?]
  · let record : UndoRecord :=
      ⟨0x1000001364, List.replicate 14 0x55, Prologue.redirect 0x3000 14, rfl⟩
    let work : Redirect := ⟨⟨0x1000001000, 434, 434⟩, record, false⟩
    have hmem : .inline ⟨"g", 0x1000001364, 0x3000, 1, .ready work⟩ ∈ lentOver.allHooks := by
      rw [inline_mem_iff]
      decide +kernel
    have hfresh : ∀ j ∈ behind.allHooks.filterMap inline?, j.passage = 1 → j.stage = .fresh := by
      decide +kernel
    have hothers : ∀ j ∈ lentOver.allHooks.filterMap inline?, j.passage ≠ 1 →
        ∀ v ∈ j.stage.work?, v.record.address + v.record.after.length ≤ 0x1000001364 := by
      decide +kernel
    have hwrites : lentOver.host.ownWrites = behind.host.ownWrites := by decide +kernel
    have hbytes := hall _ work hmem rfl (fun j hj ↦ hfresh j (inline_mem_iff.mp hj))
      (fun k v hk hne hv ↦
        UndoRecord.disjoint_of_le (.inr (hothers k (inline_mem_iff.mp hk) hne v hv)))
      (fun newer hsplit own hown ↦ by
        rw [hwrites, List.self_eq_append_left] at hsplit
        exact absurd (hsplit ▸ hown) List.not_mem_nil)
    have hover : lentOver.host.memory.bytes 0x1000001364 14 ≠ List.replicate 14 0x55 := by
      decide +kernel
    exact hover hbytes

end Session

end HotPatch
