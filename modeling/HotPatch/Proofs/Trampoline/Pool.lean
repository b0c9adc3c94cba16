import HotPatch.Proofs.Trampoline.Chunk
import HotPatch.Proofs.Trampoline.Walk
import HotPatch.Trampoline.Pool

/-!
# What the pool hands out

A request is served inside the pages of the pool. At most one page is added to them, and that one
was not mapped before.
-/

namespace HotPatch.Trampoline

namespace PoolPage

variable {p q : PoolPage} {slot : Slot} {size : Nat}

def Covers (p : PoolPage) (x : Address) : Prop := p.base ≤ x ∧ x < p.base + p.length

def Sound (p : PoolPage) : Prop := Chunk.Tile 0 p.length p.chunks

theorem sound_fresh (base : Address) (length : Nat) : (fresh base length).Sound :=
  ⟨rfl, Nat.zero_add length⟩

structure Carved (p : PoolPage) (size : Nat) (slot : Slot) : Prop where
  base : slot.base = p.base
  length : slot.length = size
  fits : slot.offset + size ≤ p.length

/-- A page that serves a request stays where it is. -/
theorem serve?_spec (hp : p.Sound) (hserve : p.serve? size = some (q, slot)) :
    q.Sound ∧ q.base = p.base ∧ q.length = p.length ∧ p.Carved size slot := by
  obtain ⟨⟨chunks, offset⟩, hallocate, heq⟩ := Option.map_eq_some_iff.mp hserve
  cases heq
  obtain ⟨htile, -, hfits⟩ := Chunk.allocate?_tile hp hallocate
  exact ⟨htile, rfl, rfl, rfl, rfl, hfits⟩

/-- A page that was just mapped serves any request that is not longer than it. -/
theorem serve?_fresh (base : Address) {length : Nat} (hsize : size ≤ length) :
    ∃ q slot, (fresh base length).serve? size = some (q, slot) := by
  obtain ⟨chunks, offset, hallocate⟩ := Chunk.allocate?_fresh hsize
  refine ⟨⟨base, length, chunks⟩, ⟨base, offset, size⟩, ?_⟩
  simp [serve?, fresh, hallocate]

theorem Carved.covers (hslot : p.Carved size slot) {x : Nat} (hx : slot.address ≤ x)
    (hlt : x < slot.address + size) : p.Covers x := by
  obtain ⟨hbase, -, hfits⟩ := hslot
  simp only [Covers, Slot.address, hbase, Address] at *
  omega

def Serves (w : Span) (size : Nat) (p : PoolPage) : Prop := p.Inside w ∧ (p.serve? size).isSome

end PoolPage

namespace Pool

variable {pool pool' : Pool} {m m' : Memory} {w : Span} {pages pages' : List PoolPage}
  {p q : PoolPage} {slot : Slot} {origin : Address} {size : Nat}

def Covers (pool : Pool) (x : Address) : Prop := ∃ p ∈ pool.pages, p.Covers x

def Sound (pool : Pool) : Prop := ∀ p ∈ pool.pages, p.Sound

theorem not_covers_empty (x : Address) : ¬ empty.Covers x := by
  rintro ⟨p, hp, -⟩
  cases hp

theorem sound_empty : empty.Sound := by
  intro p hp
  cases hp

/-! ## Reusing a page -/

theorem reuse?_cons_of_serves (hinside : p.Inside w) (hserve : p.serve? size = some (q, slot)) :
    reuse? w size (p :: pages) = some (q :: pages, slot) := by
  rw [reuse?, if_pos hinside, hserve]

theorem reuse?_cons_of_not_serves (hp : ¬ p.Serves w size) :
    reuse? w size (p :: pages) = (reuse? w size pages).map fun r ↦ (p :: r.1, r.2) := by
  rw [reuse?]
  split
  · rename_i hserved
    split at hserved
    · rename_i hinside
      exact absurd ⟨hinside, Option.isSome_of_eq_some hserved⟩ hp
    · cases hserved
  · rfl

theorem reuse?_eq_none_iff : reuse? w size pages = none ↔ ∀ p ∈ pages, ¬ p.Serves w size := by
  induction pages with
  | nil => exact iff_of_true rfl (List.forall_mem_nil _)
  | cons p rest ih =>
      rw [List.forall_mem_cons]
      by_cases hp : p.Serves w size
      · obtain ⟨hinside, hsome⟩ := hp
        obtain ⟨⟨q, slot⟩, hserve⟩ := Option.isSome_iff_exists.mp hsome
        rw [reuse?_cons_of_serves hinside hserve]
        exact iff_of_false nofun fun h ↦ h.1 ⟨hinside, hsome⟩
      · rw [reuse?_cons_of_not_serves hp, Option.map_eq_none_iff, ih]
        exact (and_iff_right hp).symm

/-- The first page that can serve a request does. -/
theorem reuse?_append_cons {before after : List PoolPage}
    (hbefore : ∀ b ∈ before, ¬ b.Serves w size) (hinside : p.Inside w)
    (hserve : p.serve? size = some (q, slot)) :
    reuse? w size (before ++ p :: after) = some (before ++ q :: after, slot) := by
  induction before with
  | nil => exact reuse?_cons_of_serves hinside hserve
  | cons b rest ih =>
      obtain ⟨hb, hrest⟩ := List.forall_mem_cons.mp hbefore
      rw [List.cons_append, reuse?_cons_of_not_serves hb, ih hrest]
      rfl

/-- The first page that serves the request is used again. -/
theorem exists_of_reuse? (hreuse : reuse? w size pages = some (pages', slot)) :
    ∃ before p q after, pages = before ++ p :: after ∧ pages' = before ++ q :: after ∧
      (∀ b ∈ before, ¬ b.Serves w size) ∧ p.Inside w ∧ p.serve? size = some (q, slot) := by
  induction pages generalizing pages' with
  | nil => cases hreuse
  | cons p rest ih =>
      by_cases hp : p.Serves w size
      · obtain ⟨hinside, hsome⟩ := hp
        obtain ⟨⟨q, slot'⟩, hserve⟩ := Option.isSome_iff_exists.mp hsome
        rw [reuse?_cons_of_serves hinside hserve] at hreuse
        cases hreuse
        exact ⟨[], p, q, rest, rfl, rfl, List.forall_mem_nil _, hinside, hserve⟩
      · rw [reuse?_cons_of_not_serves hp] at hreuse
        obtain ⟨⟨served, slot'⟩, hserved, heq⟩ := Option.map_eq_some_iff.mp hreuse
        cases heq
        obtain ⟨before, p', q, after, rfl, rfl, hbefore, hserve⟩ := ih hserved
        exact ⟨p :: before, p', q, after, rfl, rfl, List.forall_mem_cons.mpr ⟨hp, hbefore⟩,
          hserve⟩

def SamePages (pages pages' : List PoolPage) : Prop :=
  pages.map (fun p ↦ (p.base, p.length)) = pages'.map (fun p ↦ (p.base, p.length))

theorem SamePages.covers_iff (hsame : SamePages pages pages') (x : Address) :
    Covers ⟨pages⟩ x ↔ Covers ⟨pages'⟩ x := by
  have hcovers (ps : List PoolPage) : Covers ⟨ps⟩ x ↔
      ∃ e ∈ ps.map (fun p ↦ (p.base, p.length)), e.1 ≤ x ∧ x < e.1 + e.2 := by
    constructor
    · rintro ⟨p, hp, hx⟩
      exact ⟨_, List.mem_map_of_mem hp, hx⟩
    · rintro ⟨e, he, hx⟩
      obtain ⟨p, hp, rfl⟩ := List.mem_map.mp he
      exact ⟨p, hp, hx⟩
  rw [hcovers, hcovers, hsame]

theorem sound_append : Sound ⟨pages ++ pages'⟩ ↔ Sound ⟨pages⟩ ∧ Sound ⟨pages'⟩ :=
  List.forall_mem_append

theorem sound_cons : Sound ⟨p :: pages⟩ ↔ p.Sound ∧ Sound ⟨pages⟩ := List.forall_mem_cons

/-- A request served from pages that are there moves borders only. -/
theorem reuse?_spec (hs : Sound ⟨pages⟩) (hreuse : reuse? w size pages = some (pages', slot)) :
    Sound ⟨pages'⟩ ∧ SamePages pages' pages ∧ ∃ p ∈ pages, p.Carved size slot := by
  obtain ⟨before, p, q, after, rfl, rfl, -, -, hserve⟩ := exists_of_reuse? hreuse
  rw [sound_append, sound_cons] at hs ⊢
  obtain ⟨hbefore, hp, hafter⟩ := hs
  obtain ⟨hq, hbase, hlength, hslot⟩ := PoolPage.serve?_spec hp hserve
  refine ⟨⟨hbefore, hq, hafter⟩, ?_, p, by simp, hslot⟩
  simp [SamePages, hbase, hlength]

/-! ## Mapping a page -/

theorem div_pageSize_eq_iff {n x : Nat} :
    x / pageSize = n ↔ n * pageSize ≤ x ∧ x < (n + 1) * pageSize := by
  simp only [pageSize]
  omega

structure Offered (m : Memory) (w : Span) (length n : Nat) : Prop where
  free : m.page n = none
  start_le : w.start ≤ n * pageSize
  le_stop : n * pageSize + length ≤ w.stop

theorem offered_of_find? {d : Direction} {length : Nat} {a : Address}
    (hfind : (Walk.start origin w d).find? m (fits w length) = some a) :
    ∃ n, a = n * pageSize ∧ Offered m w length n := by
  have hin := Walk.inStep_of_find? (Walk.aligned_start origin w d) hfind
  obtain ⟨n, rfl, ⟨hahead, hfree, hfits⟩, -⟩ := (Walk.find?_eq_some_iff hin).mp hfind
  rw [fits, Bool.and_eq_true, decide_eq_true_iff, decide_eq_true_iff] at hfits
  refine ⟨n, rfl, hfree, ?_, hfits.2⟩
  cases d with
  | up => exact Nat.le_trans hin.entered.2 hahead.1
  | down => exact hahead.2.1

/-- Every mapping starts with a page that was free and stays inside the window. -/
theorem offered_of_place? {length : Nat} {a : Address}
    (hplace : place? m w origin length = some a) :
    ∃ n, a = n * pageSize ∧ Offered m w length n := by
  unfold place? at hplace
  split at hplace
  · rename_i hup
    exact offered_of_find? (hplace ▸ hup)
  · exact offered_of_find? hplace

theorem offered_page_of_place? {length n : Nat}
    (hplace : place? m w origin length = some (n * pageSize)) : Offered m w length n := by
  obtain ⟨k, hk, hoffered⟩ := offered_of_place? hplace
  rwa [Nat.eq_of_mul_eq_mul_right (by decide) hk]

theorem pageCount_of_le (hsize : size ≤ pageSize) : pageCount size = 1 := by
  simp only [pageCount, pageSize] at *
  omega

theorem le_pageCount_mul (size : Nat) : size ≤ pageCount size * pageSize := by
  simp only [pageCount, pageSize] at *
  omega

/-! ## Handing out and taking back -/

/-- How a request goes: it is served from a page that is there, fails, or is served from a page that
is mapped for it. -/
inductive Course (w : Span) (pool : Pool) (m : Memory) (origin : Address) (size : Nat) :
    Option Slot × Pool × Memory → Prop where
  | reused {pages : List PoolPage} {slot : Slot}
      (hreuse : reuse? w size pool.pages = some (pages, slot)) :
      Course w pool m origin size (some slot, ⟨pages⟩, m)
  | failed (hreuse : reuse? w size pool.pages = none)
      (hplace : place? m w origin (pageCount size * pageSize) = none) :
      Course w pool m origin size (none, pool, m)
  | mapped {n : Nat} {p : PoolPage} {slot : Slot}
      (hreuse : reuse? w size pool.pages = none)
      (hplace : place? m w origin (pageCount size * pageSize) = some (n * pageSize))
      (hserve : (PoolPage.fresh (n * pageSize) (pageCount size * pageSize)).serve? size =
        some (p, slot)) :
      Course w pool m origin size
        (some slot, ⟨pool.pages ++ [p]⟩, m.map n (pageCount size) .all)

theorem allocateIn_of_reuse (hreuse : reuse? w size pool.pages = some (pages, slot)) :
    pool.allocateIn w m origin size = (some slot, ⟨pages⟩, m) := by
  unfold allocateIn
  rw [hreuse]

theorem allocateIn_of_place (hreuse : reuse? w size pool.pages = none) {n : Nat}
    (hplace : place? m w origin (pageCount size * pageSize) = some (n * pageSize))
    (hserve : (PoolPage.fresh (n * pageSize) (pageCount size * pageSize)).serve? size =
      some (p, slot)) :
    pool.allocateIn w m origin size =
      (some slot, ⟨pool.pages ++ [p]⟩, m.map n (pageCount size) .all) := by
  unfold allocateIn
  rw [hreuse]
  dsimp only
  rw [hplace]
  dsimp only
  rw [hserve, Nat.mul_div_cancel n (by decide)]

theorem allocateIn_eq_none (hreuse : reuse? w size pool.pages = none)
    (hplace : place? m w origin (pageCount size * pageSize) = none) :
    pool.allocateIn w m origin size = (none, pool, m) := by
  unfold allocateIn
  rw [hreuse]
  dsimp only
  rw [hplace]

/-- Whatever is asked for, a request goes one of these ways. -/
theorem allocateIn_course (w : Span) (pool : Pool) (m : Memory) (origin : Address) (size : Nat) :
    Course w pool m origin size (pool.allocateIn w m origin size) := by
  cases hreuse : reuse? w size pool.pages with
  | some served =>
      rw [allocateIn_of_reuse hreuse]
      exact .reused hreuse
  | none =>
      cases hplace : place? m w origin (pageCount size * pageSize) with
      | none =>
          rw [allocateIn_eq_none hreuse hplace]
          exact .failed hreuse hplace
      | some base =>
          obtain ⟨n, rfl, -⟩ := offered_of_place? hplace
          obtain ⟨p, slot, hserve⟩ := PoolPage.serve?_fresh (n * pageSize) (le_pageCount_mul size)
          rw [allocateIn_of_place hreuse hplace hserve]
          exact .mapped hreuse hplace hserve

theorem allocate_course (pool : Pool) (m : Memory) (origin : Address) (size : Nat) :
    Course (window origin) pool m origin size (pool.allocate m origin size) :=
  allocateIn_course (window origin) pool m origin size

/-- A request for at most a page fails and changes nothing, or is served inside the pool, which has
then got one page more at most. -/
theorem allocate_cases (hs : pool.Sound) (hsize : size ≤ pageSize) (m : Memory)
    (origin : Address) :
    pool.allocate m origin size = (none, pool, m) ∨
      ∃ slot pool' m', pool.allocate m origin size = (some slot, pool', m') ∧
        slot.length = size ∧ pool'.Sound ∧
        (∀ x, slot.address ≤ x → x < slot.address + size → pool'.Covers x) ∧
        (m' = m ∧ (∀ x, pool'.Covers x ↔ pool.Covers x) ∨
          ∃ n, m.page n = none ∧ m' = m.map n 1 .all ∧
            ∀ x, pool'.Covers x ↔ pool.Covers x ∨ x / pageSize = n) := by
  have hcourse := allocate_course pool m origin size
  generalize pool.allocate m origin size = result at hcourse
  cases hcourse with
  | @reused pages slot hreuse =>
      obtain ⟨hsound, hsame, p, hp, hslot⟩ := reuse?_spec hs hreuse
      exact .inr ⟨slot, ⟨pages⟩, m, rfl, hslot.length, hsound,
        fun x hx hlt ↦ (hsame.covers_iff x).mpr ⟨p, hp, hslot.covers hx hlt⟩,
        .inl ⟨rfl, hsame.covers_iff⟩⟩
  | failed => exact .inl rfl
  | @mapped n p slot _ hplace hserve =>
      have hfree := (offered_page_of_place? hplace).free
      rw [pageCount_of_le hsize] at hserve ⊢
      rw [Nat.one_mul] at hserve
      obtain ⟨hp, hbase, hlength, hslot⟩ :=
        PoolPage.serve?_spec (PoolPage.sound_fresh (n * pageSize) pageSize) hserve
      have hpage (x : Nat) : p.Covers x ↔ x / pageSize = n := by
        rw [PoolPage.Covers, hbase, hlength, div_pageSize_eq_iff, Nat.add_one_mul]
        exact Iff.rfl
      have hcovers (x : Address) :
          Covers ⟨pool.pages ++ [p]⟩ x ↔ pool.Covers x ∨ x / pageSize = n := by
        simp [Covers, ← hpage, or_and_right, exists_or]
      refine .inr ⟨slot, _, _, rfl, hslot.length, ?_, fun x hx hlt ↦ (hcovers x).mpr (.inr ?_),
        .inr ⟨n, hfree, rfl, hcovers⟩⟩
      · exact sound_append.mpr ⟨hs, sound_cons.mpr ⟨hp, sound_empty⟩⟩
      · have hin := hslot.covers hx hlt
        rwa [← hpage, PoolPage.Covers, hbase, hlength]

theorem allocate_sound (hs : pool.Sound) (m : Memory) (origin : Address) (size : Nat) :
    (pool.allocate m origin size).2.1.Sound := by
  have hcourse := allocate_course pool m origin size
  generalize pool.allocate m origin size = result at hcourse
  cases hcourse with
  | reused hreuse => exact (reuse?_spec hs hreuse).1
  | failed => exact hs
  | @mapped n _ _ _ _ hserve =>
      have hp := (PoolPage.serve?_spec (PoolPage.sound_fresh _ _) hserve).1
      exact sound_append.mpr ⟨hs, sound_cons.mpr ⟨hp, sound_empty⟩⟩

theorem length_of_serve? {q : PoolPage} (hserve : p.serve? size = some (q, slot)) :
    slot.length = size := by
  obtain ⟨_, -, heq⟩ := Option.map_eq_some_iff.mp hserve
  cases heq
  rfl

theorem length_of_reuse? {ps qs : List PoolPage} (hreuse : reuse? w size ps = some (qs, slot)) :
    slot.length = size := by
  induction ps generalizing qs with
  | nil => cases hreuse
  | cons p ps ih =>
      rw [reuse?] at hreuse
      split at hreuse
      · rename_i heq
        split at heq
        · cases hreuse
          exact length_of_serve? heq
        · cases heq
      · obtain ⟨⟨rest, slot'⟩, hrest, heq⟩ := Option.map_eq_some_iff.mp hreuse
        cases heq
        exact ih hrest

/-- What is handed out is as long as what was asked for. -/
theorem length_of_allocate {pool' : Pool} {m' : Memory}
    (h : pool.allocate m origin size = (some slot, pool', m')) : slot.length = size := by
  have hcourse := allocate_course pool m origin size
  rw [h] at hcourse
  cases hcourse with
  | reused hreuse => exact length_of_reuse? hreuse
  | mapped _ _ hserve => exact length_of_serve? hserve

theorem free_samePages (pool : Pool) (slot : Slot) :
    SamePages (pool.free slot).pages pool.pages := by
  rw [SamePages, free, List.map_map]
  refine List.map_congr_left fun p _ ↦ ?_
  rw [Function.comp_apply]
  split <;> rfl

theorem free_covers (pool : Pool) (slot : Slot) (x : Address) :
    (pool.free slot).Covers x ↔ pool.Covers x :=
  (pool.free_samePages slot).covers_iff x

theorem free_sound (hs : pool.Sound) (slot : Slot) : (pool.free slot).Sound := by
  intro q hq
  obtain ⟨p, hp, rfl⟩ := List.mem_map.mp hq
  split
  · exact Chunk.release_tile slot.offset (hs p hp)
  · exact hs p hp

/-- The pool comes from an empty one by requests, of any size, and by giving slots back. -/
inductive Reached : Pool → Prop
  | empty : Reached empty
  | allocate {p : Pool} (hp : Reached p) (m : Memory) (origin : Address) (size : Nat) :
      Reached (p.allocate m origin size).2.1
  | free {p : Pool} (hp : Reached p) (slot : Slot) : Reached (p.free slot)

theorem Reached.sound (hp : pool.Reached) : pool.Sound := by
  induction hp with
  | empty => exact sound_empty
  | allocate _ m origin size ih => exact allocate_sound ih m origin size
  | free _ slot ih => exact free_sound ih slot

end Pool

end HotPatch.Trampoline
