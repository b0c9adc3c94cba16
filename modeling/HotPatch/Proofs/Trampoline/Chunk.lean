import HotPatch.Trampoline.Chunk

/-!
# Chunks stay adjoining

Taking from a page and giving back to it only move the borders between its chunks, so that what is
handed out lies inside the page.
-/

namespace HotPatch.Trampoline.Chunk

variable {size surplus offset s e : Nat} {c d : Chunk} {cs ds : List Chunk}

/-- The chunks cover the offsets from `s` up to but not including `e`, each one starting where the
one before it ends. -/
def Tile (s e : Nat) : List Chunk → Prop
  | [] => s = e
  | c :: rest => c.offset = s ∧ Tile (s + c.size) e rest

@[simp] theorem tile_nil : Tile s e [] ↔ s = e := Iff.rfl

@[simp] theorem tile_cons : Tile s e (c :: cs) ↔ c.offset = s ∧ Tile (s + c.size) e cs := Iff.rfl

theorem Tile.le (ht : Tile s e cs) : s ≤ e := by
  induction cs generalizing s with
  | nil => exact Nat.le_of_eq ht
  | cons c cs ih => exact Nat.le_trans (Nat.le_add_right s c.size) (ih ht.2)

/-- Each chunk lies between the ends. -/
theorem Tile.le_of_mem (ht : Tile s e cs) (hc : c ∈ cs) : s ≤ c.offset ∧ c.offset + c.size ≤ e := by
  induction cs generalizing s with
  | nil => cases hc
  | cons d cs ih =>
      obtain ⟨hd, hrest⟩ := ht
      rcases List.mem_cons.mp hc with rfl | hc
      · exact ⟨Nat.le_of_eq hd.symm, hd ▸ hrest.le⟩
      · exact ⟨Nat.le_trans (Nat.le_add_right s d.size) (ih hrest hc).1, (ih hrest hc).2⟩

theorem tile_append : Tile s e (cs ++ ds) ↔ ∃ k, Tile s k cs ∧ Tile k e ds := by
  induction cs generalizing s with
  | nil => simp
  | cons c cs ih => simp [ih, and_assoc]

/-- What is taken from a list of chunks lies inside it, whether the surplus goes backward or
forward. -/
theorem takeForward_tile {before : List Chunk} (ht : Tile s e (before ++ c :: cs))
    (hsize : c.size = size + surplus) :
    Tile s e (take.takeForward size surplus before c cs).1 ∧
      ∀ o, (take.takeForward size surplus before c cs).2 = some o → s ≤ o ∧ o + size ≤ e := by
  obtain ⟨k, hbefore, hoffset, hrest⟩ := tile_append.mp ht
  have hk := hbefore.le
  have he := hrest.le
  rw [hsize] at hrest he
  have hfits : ∀ o, some c.offset = some o → s ≤ o ∧ o + size ≤ e := by
    rintro o ⟨⟩
    omega
  cases cs with
  | nil =>
      rw [tile_nil] at hrest
      refine ⟨tile_append.mpr ⟨k, hbefore, hoffset, ?_, ?_⟩, hfits⟩
      · exact congrArg (· + size) hoffset
      · rw [tile_nil, ← hrest, Nat.add_assoc]
  | cons d cs =>
      obtain ⟨hd, hrest⟩ := hrest
      cases hfree : d.free with
      | true =>
          simp only [take.takeForward, hfree, if_true]
          refine ⟨tile_append.mpr ⟨k, hbefore, hoffset, ?_, ?_⟩, hfits⟩
          · simp only [hd]
            omega
          · rwa [show k + size + (d.size + surplus) = k + (size + surplus) + d.size by omega]
      | false =>
          simp only [take.takeForward, hfree, if_neg Bool.false_ne_true]
          refine ⟨tile_append.mpr ⟨k, hbefore, hoffset, ?_, ?_, ?_⟩, hfits⟩
          · exact congrArg (· + size) hoffset
          · rw [hd, Nat.add_assoc]
          · rwa [Nat.add_assoc k size surplus]

/-- Taking bytes off a chunk leaves no gap, and they lie inside. -/
theorem take_tile {before : Option Chunk} (ht : Tile s e (before.toList ++ cs)) :
    Tile s e (take size surplus before cs).1 ∧
      ∀ o, (take size surplus before cs).2 = some o → s ≤ o ∧ o + size ≤ e := by
  induction cs generalizing before s with
  | nil => exact ⟨by simpa [take] using ht, by simp [take]⟩
  | cons c cs ih =>
      obtain ⟨k, hbefore, hoffset, hrest⟩ := tile_append.mp ht
      have hk := hbefore.le
      have he := hrest.le
      unfold take
      split
      · rename_i hc
        have hsize : c.size = size + surplus := by
          rw [Bool.and_eq_true, beq_iff_eq] at hc
          exact hc.2
        split
        · rename_i hzero
          refine ⟨tile_append.mpr ⟨k, hbefore, hoffset, hrest⟩, ?_⟩
          rintro o ⟨⟩
          omega
        · split
          · rename_i rest b
            split
            · obtain ⟨hb, hbk⟩ := hbefore
              rw [tile_nil] at hbk
              refine ⟨⟨hb, ?_, ?_⟩, ?_⟩
              · simp only
                omega
              · rwa [show s + (b.size + surplus) + size = k + c.size by omega]
              · rintro o ⟨⟩
                omega
            · exact takeForward_tile ht hsize
          · exact takeForward_tile ht hsize
      · -- the chunk at hand becomes the one before
        have hnext : Tile k e ((some c).toList ++ cs) := ⟨hoffset, hrest⟩
        obtain ⟨htile, hfits⟩ := ih hnext
        refine ⟨tile_append.mpr ⟨k, hbefore, htile⟩, fun o ho ↦ ?_⟩
        have := hfits o ho
        omega

/-- Giving bytes back leaves no gap either. -/
theorem release_tile (offset : Nat) (ht : Tile s e cs) : Tile s e (release offset cs) := by
  induction cs generalizing s with
  | nil => exact ht
  | cons c cs ih =>
      obtain ⟨hc, hrest⟩ := ht
      cases cs with
      | nil =>
          rw [release]
          split <;> exact ⟨hc, hrest⟩
      | cons d cs =>
          rw [release]
          obtain ⟨hd, htail⟩ := hrest
          split
          · split
            · refine ⟨hc, ?_⟩
              rwa [show s + (c.size + d.size) = s + c.size + d.size by omega]
            · exact ⟨hc, hd, htail⟩
          · split
            · refine ⟨hc, ?_⟩
              rwa [show s + (c.size + d.size) = s + c.size + d.size by omega]
            · exact ⟨hc, ih ⟨hd, htail⟩⟩

/-- What is allocated lies inside the page, whose chunks stay adjoining. -/
theorem allocate?_tile (ht : Tile s e cs) (ha : allocate? size cs = some (ds, offset)) :
    Tile s e ds ∧ s ≤ offset ∧ offset + size ≤ e := by
  unfold allocate? at ha
  split at ha
  · cases ha
  · rename_i surplus _
    have htake : Tile s e (take size surplus none cs).1 ∧
        ∀ o, (take size surplus none cs).2 = some o → s ≤ o ∧ o + size ≤ e := take_tile ht
    split at ha
    · rename_i heq
      rw [heq] at htake
      cases ha
      exact ⟨htake.1, htake.2 offset rfl⟩
    · cases ha

theorem exists_of_leastSurplus? (h : leastSurplus? size cs = some surplus) :
    ∃ c ∈ cs, c.free = true ∧ size ≤ c.size := by
  induction cs generalizing surplus with
  | nil => cases h
  | cons c cs ih =>
      by_cases hc : (c.free && decide (size ≤ c.size)) = true
      · rw [Bool.and_eq_true, decide_eq_true_iff] at hc
        exact ⟨c, List.mem_cons_self .., hc⟩
      · rw [leastSurplus?, if_neg hc] at h
        obtain ⟨d, hd, hfree⟩ := ih h
        exact ⟨d, List.mem_cons_of_mem c hd, hfree⟩

/-- A request is served from a free chunk that suffices. -/
theorem exists_of_allocate? (ha : allocate? size cs = some (ds, offset)) :
    ∃ c ∈ cs, c.free = true ∧ size ≤ c.size := by
  unfold allocate? at ha
  split at ha
  · cases ha
  · rename_i hleast
    exact exists_of_leastSurplus? hleast

/-- A fresh page serves any request that is not longer than it. -/
theorem allocate?_fresh (hsize : size ≤ e) :
    ∃ cs o, allocate? size [⟨0, e, true⟩] = some (cs, o) := by
  have hleast : leastSurplus? size [⟨0, e, true⟩] = some (e - size) := by
    simp [leastSurplus?, hsize]
  have hexact : size + (e - size) = e := by omega
  by_cases hzero : e - size = 0
  · refine ⟨[⟨0, e, false⟩], 0, ?_⟩
    rw [allocate?, hleast]
    have hone : size = e := by omega
    simp [take, hone]
  · refine ⟨[⟨0, size, false⟩, ⟨0 + size, e - size, true⟩], 0, ?_⟩
    rw [allocate?, hleast]
    simp [take, take.takeForward, hexact, hzero]

end HotPatch.Trampoline.Chunk
