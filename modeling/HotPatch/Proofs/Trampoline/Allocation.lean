import HotPatch.Proofs.Trampoline.Placement

/-!
# Where a request is served

A request for at most a page is served from the first page of the pool that lies inside its window
and has room, and otherwise from a page that is mapped at the nearest place. It fails only if there
is neither.
-/

namespace HotPatch.Trampoline

namespace PoolPage

variable {p : PoolPage} {w : Span} {size : Nat}

def Within (w : Span) (p : PoolPage) : Prop := w.start ≤ p.base ∧ p.base + p.length ≤ w.stop

/-- Somewhere in the page `size` bytes in a row are free. -/
def HasRoom (size : Nat) (p : PoolPage) : Prop :=
  ∃ o, o + size ≤ p.length ∧ ∀ x, o ≤ x → x < o + size →
    ∃ c ∈ p.chunks, c.free = true ∧ c.offset ≤ x ∧ x < c.offset + c.size

/-- A page serves a request only if it has room for it. -/
theorem hasRoom_of_serve? (hp : p.Sound) (hserve : (p.serve? size).isSome) : p.HasRoom size := by
  obtain ⟨r, hr⟩ := Option.isSome_iff_exists.mp hserve
  obtain ⟨⟨chunks, offset⟩, hallocate, -⟩ := Option.map_eq_some_iff.mp hr
  obtain ⟨c, hc, hfree, hle⟩ := Chunk.exists_of_allocate? hallocate
  obtain ⟨-, hend⟩ := Chunk.Tile.le_of_mem hp hc
  refine ⟨c.offset, Nat.le_trans (Nat.add_le_add_left hle _) hend, fun x hx hlt ↦ ?_⟩
  exact ⟨c, hc, hfree, hx, Nat.lt_of_lt_of_le hlt (Nat.add_le_add_left hle _)⟩

theorem inside_iff (hlength : 0 < p.length) : p.Inside w ↔ p.Within w := by
  simp only [Inside, Within, Span.Contains, Address]
  omega

/-- A page that serves whatever it has room for. -/
theorem serves_iff (hp : p.Sound) (hsize : 0 < size)
    (hserves : p.HasRoom size → (p.serve? size).isSome) :
    p.Serves w size ↔ p.Within w ∧ p.HasRoom size := by
  have hroom : (p.serve? size).isSome ↔ p.HasRoom size := ⟨hasRoom_of_serve? hp, hserves⟩
  rw [Serves, hroom]
  refine and_congr_left fun ⟨o, hfits, _⟩ ↦ inside_iff ?_
  exact Nat.lt_of_lt_of_le hsize (Nat.le_trans (Nat.le_add_left size o) hfits)

end PoolPage

namespace Pool

variable {pool : Pool} {m : Memory} {w : Span} {p : PoolPage} {pages before after : List PoolPage}
  {slot : Slot} {origin : Address} {n size : Nat}

def Suits (w : Span) (size : Nat) (p : PoolPage) : Prop := p.Within w ∧ p.HasRoom size

/-- Every page serves what it has room for. -/
def Willing (pages : List PoolPage) (size : Nat) : Prop :=
  ∀ p ∈ pages, p.HasRoom size → (p.serve? size).isSome

theorem not_serves_iff (hs : Sound ⟨pages⟩) (hsize : 0 < size) (hwilling : Willing pages size) :
    (∀ p ∈ pages, ¬ p.Serves w size) ↔ ∀ p ∈ pages, ¬ Suits w size p :=
  forall₂_congr fun p hp ↦ not_congr (PoolPage.serves_iff (hs p hp) hsize (hwilling p hp))

/-- The first page that suits serves the request. -/
theorem allocateIn_of_suits (hs : Sound ⟨before ++ p :: after⟩) (hsize : 0 < size)
    (hwilling : Willing (before ++ p :: after) size) (hbefore : ∀ b ∈ before, ¬ Suits w size b)
    (hp : Suits w size p) :
    ∃ slot q, allocateIn w ⟨before ++ p :: after⟩ m origin size =
        (some slot, ⟨before ++ q :: after⟩, m) ∧
      q.base = p.base ∧ q.length = p.length ∧ p.Carved size slot := by
  have hmem : p ∈ before ++ p :: after := by simp
  have hfirst : ∀ b ∈ before, ¬ b.Serves w size :=
    (not_serves_iff (sound_append.mp hs).1 hsize fun b hb ↦
      hwilling b (List.mem_append_left _ hb)).mpr hbefore
  obtain ⟨hinside, hsome⟩ := (PoolPage.serves_iff (hs p hmem) hsize (hwilling p hmem)).mpr hp
  obtain ⟨⟨q, slot⟩, hserve⟩ := Option.isSome_iff_exists.mp hsome
  obtain ⟨-, hbase, hlength, hslot⟩ := PoolPage.serve?_spec (hs p hmem) hserve
  exact ⟨slot, q, allocateIn_of_reuse (reuse?_append_cons hfirst hinside hserve), hbase, hlength,
    hslot⟩

/-- With no page that suits, the nearest one is mapped and serves the request. -/
theorem allocateIn_of_nearest (hw : Around w origin) (hsize : size ≤ pageSize)
    (hreuse : reuse? w size pool.pages = none) (hn : Nearest m w pageSize (origin / pageSize) n) :
    ∃ slot q, pool.allocateIn w m origin size =
        (some slot, ⟨pool.pages ++ [q]⟩, m.map n 1 .all) ∧
      q.base = n * pageSize ∧ q.length = pageSize ∧ q.Carved size slot := by
  have hcount := pageCount_of_le hsize
  have hlen : pageCount size * pageSize = pageSize := by rw [hcount, Nat.one_mul]
  have hplace : place? m w origin (pageCount size * pageSize) = some (n * pageSize) := by
    rw [hlen]
    exact (place?_eq_some_iff hw (by decide)).mpr ⟨n, rfl, hn⟩
  obtain ⟨q, slot, hserve⟩ := PoolPage.serve?_fresh (n * pageSize) (le_pageCount_mul size)
  obtain ⟨-, hbase, hlength, hslot⟩ := PoolPage.serve?_spec (PoolPage.sound_fresh _ _) hserve
  refine ⟨slot, q, ?_, hbase, hlength.trans hlen, ?_⟩
  · rw [allocateIn_of_place hreuse hplace hserve, hcount]
  · exact ⟨hslot.base.trans hbase.symm, hslot.length, hlength ▸ hslot.fits⟩

/-- The request fails only with no page that suits and none to map. -/
theorem allocateIn_eq_none_iff (hw : Around w origin) (hsize : size ≤ pageSize) :
    (pool.allocateIn w m origin size).1 = none ↔
      reuse? w size pool.pages = none ∧ ∀ n, Offered m w pageSize n → n = 0 := by
  rw [← place?_eq_none_iff hw (by decide), ← Nat.one_mul pageSize, ← pageCount_of_le hsize]
  have hcourse := allocateIn_course w pool m origin size
  generalize pool.allocateIn w m origin size = result at hcourse
  cases hcourse with
  | reused hreuse => exact iff_of_false nofun fun h ↦ nomatch hreuse.symm.trans h.1
  | failed hreuse hplace => exact iff_of_true rfl ⟨hreuse, hplace⟩
  | mapped _ hplace => exact iff_of_false nofun fun h ↦ nomatch hplace.symm.trans h.2

theorem carved_within (hp : p.Within w) (hslot : p.Carved size slot) :
    w.start ≤ slot.address ∧ slot.address + slot.length ≤ w.stop := by
  obtain ⟨hstart, hstop⟩ := hp
  obtain ⟨hbase, hlength, hfits⟩ := hslot
  simp only [Slot.address, hbase, hlength, Address] at *
  omega

/-- A slot lies inside the window. -/
theorem allocateIn_within (hs : pool.Sound) (hsize : 0 < size)
    (hslot : (pool.allocateIn w m origin size).1 = some slot) :
    slot.length = size ∧ w.start ≤ slot.address ∧ slot.address + slot.length ≤ w.stop := by
  have hcourse := allocateIn_course w pool m origin size
  generalize pool.allocateIn w m origin size = result at hcourse hslot
  cases hcourse with
  | reused hreuse =>
      cases hslot
      obtain ⟨before, p, q, after, hpages, -, -, hinside, hserve⟩ := exists_of_reuse? hreuse
      have hp : p.Sound := hs p (by rw [hpages]; simp)
      obtain ⟨-, -, -, hcarved⟩ := PoolPage.serve?_spec hp hserve
      have hlength : 0 < p.length :=
        Nat.lt_of_lt_of_le hsize (Nat.le_trans (Nat.le_add_left ..) hcarved.fits)
      exact ⟨hcarved.length, carved_within ((PoolPage.inside_iff hlength).mp hinside) hcarved⟩
  | failed => cases hslot
  | mapped _ hplace hserve =>
      cases hslot
      have hoffered := offered_page_of_place? hplace
      obtain ⟨-, -, -, hcarved⟩ := PoolPage.serve?_spec (PoolPage.sound_fresh _ _) hserve
      exact ⟨hcarved.length, carved_within ⟨hoffered.start_le, hoffered.le_stop⟩ hcarved⟩

/-- Which page serves a request for at most a page, of those in the pool and those that could be
mapped, if the pages of the pool serve whatever they have room for. -/
theorem allocate_places (hpool : pool.Reached) (hpage : pageSize ≤ origin)
    (hlimit : origin + reach < addressLimit) (hsize : 0 < size) (hle : size ≤ pageSize)
    (hwilling : Willing pool.pages size) (m : Memory) :
    let w : Span := ⟨origin - reach, origin + reach⟩
    (∀ before p after, pool.pages = before ++ p :: after → Suits w size p →
      (∀ b ∈ before, ¬ Suits w size b) →
        ∃ slot q, pool.allocate m origin size = (some slot, ⟨before ++ q :: after⟩, m) ∧
          q.base = p.base ∧ q.length = p.length ∧ p.Carved size slot) ∧
    ((∀ p ∈ pool.pages, ¬ Suits w size p) →
      ∀ n, Nearest m w pageSize (origin / pageSize) n →
        ∃ slot q, pool.allocate m origin size =
            (some slot, ⟨pool.pages ++ [q]⟩, m.map n 1 .all) ∧
          q.base = n * pageSize ∧ q.length = pageSize ∧ q.Carved size slot) ∧
    ((pool.allocate m origin size).1 = none ↔
      (∀ p ∈ pool.pages, ¬ Suits w size p) ∧ ∀ n, Offered m w pageSize n → n = 0) ∧
    ∀ slot, (pool.allocate m origin size).1 = some slot →
      slot.length = size ∧ w.start ≤ slot.address ∧ slot.address + slot.length ≤ w.stop := by
  intro w
  have hw : window origin = w := window_eq hlimit
  have haround : Around w origin := by
    rw [← hw]
    exact around_window hpage (Nat.lt_of_le_of_lt (Nat.le_add_right ..) hlimit)
  have hs : Sound ⟨pool.pages⟩ := hpool.sound
  have hreuse : (∀ p ∈ pool.pages, ¬ Suits w size p) ↔ reuse? w size pool.pages = none :=
    (not_serves_iff hs hsize hwilling).symm.trans reuse?_eq_none_iff.symm
  rw [allocate, hw]
  refine ⟨?_, ?_, ?_, ?_⟩
  · intro before p after hpages hp hbefore
    rw [hpages] at hs hwilling
    obtain ⟨pages⟩ := pool
    cases hpages
    exact allocateIn_of_suits hs hsize hwilling hbefore hp
  · intro hnone n hn
    exact allocateIn_of_nearest haround hle (hreuse.mp hnone) hn
  · rw [hreuse]
    exact allocateIn_eq_none_iff haround hle
  · intro slot hslot
    exact allocateIn_within hs hsize hslot

/-- Behind a page of code a page was mapped for sixteen bytes. The rest of it serves the next
request. -/
theorem allocate_places_second :
    let m := Memory.empty.map 0x1000000 1 .all
    let p : PoolPage := ⟨0x1000001000, 4096, [⟨0, 16, false⟩, ⟨16, 4080, true⟩]⟩
    (⟨[p]⟩ : Pool).Reached ∧ Suits ⟨0xf80000000, 0x1080000000⟩ 32 p ∧
      ∃ slot q, (⟨[p]⟩ : Pool).allocate (m.map 0x1000001 1 .all) 0x1000000000 32 =
          (some slot, ⟨[q]⟩, m.map 0x1000001 1 .all) ∧
        q.base = p.base ∧ q.length = p.length ∧ p.Carved 32 slot := by
  intro m p
  have haround : Around (window 0x1000000000) 0x1000000000 :=
    around_window (by decide) (by decide)
  have hnearest : Nearest m (window 0x1000000000) (pageCount 16 * pageSize)
      (0x1000000000 / pageSize) 0x1000001 := by
    refine ⟨⟨rfl, by decide, by decide⟩, .inl ⟨by decide, fun k hk hle ↦ ?_⟩⟩
    refine Nat.lt_of_le_of_ne hle ?_
    rintro rfl
    cases hk.free
  have hplace : place? m (window 0x1000000000) 0x1000000000 (pageCount 16 * pageSize) =
      some (0x1000001 * pageSize) :=
    (place?_eq_some_iff haround (by decide)).mpr ⟨0x1000001, rfl, hnearest⟩
  have hserve : (PoolPage.fresh (0x1000001 * pageSize) (pageCount 16 * pageSize)).serve? 16 =
      some (p, ⟨0x1000001000, 0, 16⟩) := by decide
  have hfirst : empty.allocate m 0x1000000000 16 =
      (some ⟨0x1000001000, 0, 16⟩, ⟨[p]⟩, m.map 0x1000001 (pageCount 16) .all) :=
    allocateIn_of_place rfl hplace hserve
  have hreached : (⟨[p]⟩ : Pool).Reached := by
    have hrun := Reached.allocate .empty m 0x1000000000 16
    rwa [hfirst] at hrun
  have hsuits : Suits ⟨0xf80000000, 0x1080000000⟩ 32 p := by
    refine ⟨⟨by decide, by decide⟩, 16, by decide, fun x hx hlt ↦ ?_⟩
    exact ⟨⟨16, 4080, true⟩, by simp [p], rfl, hx, Nat.lt_of_lt_of_le hlt (by decide)⟩
  have hwilling : Willing [p] 32 := by
    rintro q hq -
    rw [List.mem_singleton.mp hq]
    decide
  have horigin : pageSize ≤ (0x1000000000 : Address) := by decide
  obtain ⟨hplaces, -⟩ := allocate_places hreached horigin (by decide) (by decide) (by decide)
    hwilling (m.map 0x1000001 1 .all)
  exact ⟨hreached, hsuits, hplaces [] p [] rfl hsuits (List.forall_mem_nil _)⟩

end Pool

end HotPatch.Trampoline
