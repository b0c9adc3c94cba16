import HotPatch.Proofs.Patch.Standing
import HotPatch.Proofs.Runs
import Mathlib.Data.List.Induction

/-!
# The life of a patch

Between an install and the next uninstall a patch is updated and its settings are changed, any
number of times, some of it failing, while the objects that settings are bound to come, go and move.
-/

namespace HotPatch

open Host

namespace Patch

variable {p : Patch} {s : Site} {h₀ : Host}

/-- What happens in the life of a patch: it is called on to do something, or an object that settings
are bound to comes, goes or moves. -/
inductive Turn where
  | call (c : Call)
  | place (cell : Nat) (a : Option Address)

def Turn.take : Turn → Patch × Site → Patch × Site
  | .call c, now => c.run now.1 now.2
  | .place cell a, now => (now.1, { now.2 with host := now.2.host.setDeferred cell a })

/-- What a turn writes overlaps no write that is already there and may be taken back earlier. All of
it lies outside the pool. -/
def Turn.Apart (p : Patch) (s : Site) : Turn → Prop
  | .call .install =>
    p.enabled = false → p.metadata.versions.contains s.resolver.version = true → p.Separate s
  | .call .uninstall => True
  | .call .update => p.enabled = true → p.Unobstructed s
  | .call (.setSetting name v) =>
    p.enabled = true →
      (Setting.records (p.setSetting name v s).2.1.settings).Pairwise UndoRecord.Disjoint ∧
        ∀ r ∈ Setting.records (p.setSetting name v s).2.1.settings, r.Avoids s.host.pool.Covers
  | .place _ _ => True

/-- One turn keeps a patch standing if it writes apart from what is there already. -/
theorem Standing.take (hs : h₀.pool.Sound) (hp : p.Standing h₀ s.host) (t : Turn)
    (hapart : t.Apart p s) : (t.take (p, s)).1.Standing h₀ (t.take (p, s)).2.host := by
  cases t with
  | call c =>
      cases c with
      | install => exact hp.installed hapart
      | uninstall => exact hp.uninstall hs
      | update => exact hp.updated hapart
      | setSetting name v => exact hp.configured name v hapart
  | place cell a => exact hp.quiet (.of_eq rfl rfl rfl)

def play (ts : List Turn) (start : Patch × Site) : Patch × Site :=
  ts.foldl (fun now t ↦ t.take now) start

theorem play_concat (ts : List Turn) (t : Turn) (start : Patch × Site) :
    play (ts ++ [t]) start = t.take (play ts start) := List.foldl_concat ..

theorem Standing.play (hs : h₀.pool.Sound) (hp : p.Standing h₀ s.host) (ts : List Turn)
    (hapart : ∀ front t, front ++ [t] <+: ts →
      t.Apart (Patch.play front (p, s)).1 (Patch.play front (p, s)).2) :
    (Patch.play ts (p, s)).1.Standing h₀ (Patch.play ts (p, s)).2.host := by
  -- the last turn finds the patch as the earlier ones left it, from the same start
  induction ts using List.reverseRecOn with
  | nil => exact hp
  | append_singleton ts t ih =>
      rw [play_concat]
      have hearlier := ih fun front u hfront ↦
        hapart front u (hfront.trans (List.prefix_append ts [t]))
      apply hearlier.take hs
      exact hapart ts t (List.prefix_refl _)

/-- Whatever a patch went through, with writes that keep apart from each other, it can be
uninstalled at any point, and then memory outside the pool is what it was before the first install.
-/
theorem uninstall_restores (metadata : Metadata) (b : Body) (hinstall : ∀ n, (b.install n).Plain)
    (hupdate : ∀ n, (b.update n).Plain) (hb : Setting.Unwritten b.settings) (s₀ : Site)
    (hs : s₀.host.pool.Sound) (ts : List Turn)
    (hapart : ∀ front t, front ++ [t] <+: ts →
      t.Apart (play front (ofBody metadata b, s₀)).1 (play front (ofBody metadata b, s₀)).2) :
    ∀ front, front <+: ts →
      let now := play front (ofBody metadata b, s₀)
      (now.1.uninstall now.2).1 = true ∧ (now.1.uninstall now.2).2.1.Clean ∧
        SameOutside s₀.host (now.1.uninstall now.2).2.2.host := by
  intro front hfront now
  have hstart : (ofBody metadata b).Standing s₀.host s₀.host :=
    .of_clean hinstall hupdate ⟨rfl, rfl, hb⟩ (.refl s₀.host) hs
  have hnow := hstart.play hs front fun earlier t hturn ↦ hapart earlier t (hturn.trans hfront)
  obtain ⟨p, s, heq, hclean, hback⟩ := hnow.uninstall_clean
  rw [show now.1.uninstall now.2 = _ from heq]
  exact ⟨rfl, hclean, hback.sameOutside⟩

/-- A body with one setting. It makes a change when it is installed and another one in each update,
the first of which fails after that. -/
def retrying : Body where
  settings := [(Setting.int "Level" 3 0 9).bind ⟨.deferred 1, .u8⟩]
  install _ := .transaction (.write (.bytes 0 [170]) fun _ ↦ .done) (Program.after .done)
  update n := .transaction (.write (.bytes (2 + n) [187]) fun _ ↦
    if n = 0 then .fail (.other "not yet") else .done) (Program.after .done)
  farewell := none
  farewellAborts := false
  customUi := false

/-- The object appears after the install, moves, and disappears in the end. -/
theorem uninstall_restores_retrying :
    let s : Site := ⟨.new .unknown ⟨0, 0⟩, .onePage⟩
    let ts : List Turn := [.call .install, .place 1 (some 16), .call .update,
      .call (.setSetting "Level" (.int 5)), .place 1 (some 32), .call .update,
      .call (.setSetting "Level" (.int 6)), .place 1 none, .call (.setSetting "Level" (.int 7))]
    let now := play ts (ofBody (.named "A") retrying, s)
    (now.2.host.memory.bytes 0 4 = [170, 0, 0, 187] ∧ now.2.host.memory.byte 32 = 6) ∧
      (now.1.uninstall now.2).1 = true ∧ (now.1.uninstall now.2).2.1.Clean ∧
        SameOutside s.host (now.1.uninstall now.2).2.2.host := by
  intro s ts
  have hinstall : ∀ n, (retrying.install n).Plain := fun n ↦
    ⟨fun _ ↦ trivial, fun r ↦ by cases r <;> trivial⟩
  have hupdate : ∀ n, (retrying.update n).Plain := fun n ↦
    ⟨fun _ ↦ by dsimp only; split <;> trivial, fun r ↦ by cases r <;> trivial⟩
  have hapart : ∀ front t, front ++ [t] <+: ts →
      t.Apart (play front (ofBody (.named "A") retrying, s)).1
        (play front (ofBody (.named "A") retrying, s)).2 := by
    have hchanged (p : Patch) (s : Site) (v : Setting.Value)
        (hone : (p.setSetting "Level" v s).2.1.settings.length ≤ 1) (hpool : s.host.pool = .empty) :
        Turn.Apart p s (.call (.setSetting "Level" v)) :=
      fun _ ↦ ⟨Setting.pairwise_records hone _, fun r _ ↦ avoids_of_empty hpool r⟩
    simp only [ts, forall_turn_cons]
    refine ⟨fun _ _ ↦ separate_of_lone ?_ ?_, trivial, fun _ ↦ unobstructed_of_lone ?_ ?_ ?_ ?_,
      hchanged _ _ _ ?_ ?_, trivial, fun _ ↦ unobstructed_of_lone ?_ ?_ ?_ ?_, hchanged _ _ _ ?_ ?_,
      trivial, hchanged _ _ _ ?_ ?_, forall_turn_nil⟩
    all_goals decide +kernel
  have hrestores := uninstall_restores (.named "A") retrying hinstall hupdate
    (List.forall_mem_singleton.mpr rfl) s Trampoline.Pool.sound_empty ts hapart ts
    (List.prefix_refl ts)
  refine ⟨⟨?_, ?_⟩, hrestores⟩
  · decide +kernel
  · decide +kernel

def withPair : Patch :=
  .ofBody (.named "A") (.ofProgram [(Setting.int "x" 1 0 9).bind ⟨.deferred 0, .u8⟩,
    (Setting.int "y" 2 0 9).bind ⟨.deferred 1, .u8⟩] .done)

/-- The first object moves away and the second to where it was. They are never at one place, but a
change of the second setting is written over what the first one left behind, and then the first
cannot be restored before the second. -/
theorem uninstall_exchanged :
    let s : Site :=
      ⟨.new .unknown ⟨0, 0⟩, (Host.onePage.setDeferred 0 (some 0)).setDeferred 1 (some 16)⟩
    let ts : List Turn := [.call .install, .place 0 (some 32), .place 1 (some 0),
      .call (.setSetting "y" (.int 3))]
    let now := play ts (withPair, s)
    (∀ front, front <+: ts → (play front (withPair, s)).2.host.deferred 0 ≠
        (play front (withPair, s)).2.host.deferred 1) ∧
      now.1.enabled = true ∧ (now.1.uninstall now.2).1 = false ∧ s.host.memory.byte 0 = 0 ∧
        (now.1.uninstall now.2).2.2.host.memory.byte 0 = 3 := by
  intro s ts now
  refine ⟨?_, by decide +kernel, by decide +kernel, by decide +kernel, by decide +kernel⟩
  simp only [ts, forall_prefix_cons, List.prefix_nil, forall_eq]
  decide +kernel

end Patch

end HotPatch
