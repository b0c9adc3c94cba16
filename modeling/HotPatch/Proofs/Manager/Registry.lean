import HotPatch.Manager.Basic
import HotPatch.Proofs.Patch.Program
import HotPatch.Proofs.Patch.Undoing

/-!
# Patches from the registry

Every patch of a new manager is built from an entry of its registry; no two have the same name.
-/

namespace HotPatch

open Host

namespace Registry

variable {r : Registry} {taken : List String} {h : Host}

def overlapping : Registry :=
  [⟨.named "first", .ofEdit (.write (.bytes 0 [1, 2]) fun _ ↦ .done)⟩,
    ⟨.named "second", .ofEdit (.write (.bytes 1 [3]) fun _ ↦ .done)⟩]

theorem mem_overlapping {e : Entry} (he : e ∈ overlapping) :
    ∃ name a new, e = ⟨.named name, .ofEdit (.write (.bytes a new) fun _ ↦ .done)⟩ := by
  simp only [overlapping, List.mem_cons, List.not_mem_nil, or_false] at he
  rcases he with rfl | rfl
  · exact ⟨_, _, _, rfl⟩
  · exact ⟨_, _, _, rfl⟩

/-- Each patch that is built is new and has the body of an entry. -/
theorem mem_build {p : Patch} (hp : p ∈ (r.build taken h).1) :
    ∃ e ∈ r, p = .ofBody e.metadata e.body := by
  induction r generalizing taken h with
  | nil => cases hp
  | cons e r ih =>
      rw [build] at hp
      split at hp
      · obtain ⟨e', he', rfl⟩ := ih hp
        exact ⟨e', List.mem_cons_of_mem e he', rfl⟩
      · rcases List.mem_cons.mp hp with rfl | hp
        · exact ⟨e, List.mem_cons_self .., rfl⟩
        · obtain ⟨e', he', rfl⟩ := ih hp
          exact ⟨e', List.mem_cons_of_mem e he', rfl⟩

/-- Names are used once. -/
theorem nodup_build :
    ((r.build taken h).1.map Patch.name).Nodup ∧
      ∀ name ∈ (r.build taken h).1.map Patch.name, name ∉ taken := by
  induction r generalizing taken h with
  | nil => exact ⟨.nil, fun _ hname ↦ nomatch hname⟩
  | cons e r ih =>
      rw [build]
      split
      · exact ih
      · rename_i hfresh
        obtain ⟨hnodup, hnot⟩ := @ih (e.metadata.name :: taken) h
        refine ⟨List.nodup_cons.mpr ⟨fun hmem ↦ ?_, hnodup⟩, fun name hname ↦ ?_⟩
        · exact hnot _ hmem (List.mem_cons_self ..)
        · rcases List.mem_cons.mp hname with rfl | hname
          · intro hmem
            exact hfresh (List.elem_eq_true_of_mem hmem)
          · intro hmem
            exact hnot name hname (List.mem_cons_of_mem _ hmem)

theorem build_told : Told h (r.build taken h).2 := by
  induction r generalizing taken h with
  | nil => exact .refl h
  | cons e r ih =>
      rw [build]
      split
      · exact (Told.note ..).trans ih
      · exact ih

end Registry

namespace Manager

/-- What a manager has before anything is asked of it. -/
theorem instantiate_new (registry : Registry) (resolver : Resolver) (h : Host) :
    ((new registry resolver).instantiate h).2.1 =
        ⟨resolver, none, (registry.build [] h).1⟩ ∧
      Quiet h ((new registry resolver).instantiate h).2.2 :=
  ⟨rfl, (Registry.build_told.trans (.note ..)).quiet⟩

end Manager

end HotPatch
