import HotPatch.Proofs.Trampoline.Pool
import Mathlib.Data.Finset.Insert

/-!
# What became of the slots

A slot is live from when it is lent until it is returned. As long as what was published stays live,
and slots are lent apart from the live slots of their page, nothing that was published is lent
again.
-/

namespace HotPatch.Trampoline

namespace Slot

variable {s t : Slot}

def Overlaps (s t : Slot) : Prop :=
  max s.address t.address < min (s.address + s.length) (t.address + t.length)

instance (s t : Slot) : Decidable (s.Overlaps t) := inferInstanceAs (Decidable (_ < _))

structure InPage (s : Slot) : Prop where
  aligned : s.base % pageSize = 0
  fits : s.offset + s.length ≤ pageSize

/-- Slots in different pages have nothing in common. -/
theorem InPage.base_eq (hs : s.InPage) (ht : t.InPage) (hover : s.Overlaps t) :
    t.base = s.base := by
  obtain ⟨hsbase, hsfits⟩ := hs
  obtain ⟨htbase, htfits⟩ := ht
  simp only [Overlaps, address, Address, pageSize] at *
  omega

end Slot

namespace Dealings

def live : List Dealing → Multiset Slot
  | [] => 0
  | .lent s :: ds => s ::ₘ live ds
  | .returned s :: ds => (live ds).erase s
  | .published _ :: ds => live ds

def published : List Dealing → Finset Slot
  | [] => ∅
  | .published s :: ds => insert s (published ds)
  | .lent _ :: ds | .returned _ :: ds => published ds

/-- Each slot is lent apart from the live slots of its page. -/
def Carved : List Dealing → Prop
  | [] => True
  | .lent s :: ds => (∀ t ∈ live ds, t.base = s.base → ¬ s.Overlaps t) ∧ Carved ds
  | .returned _ :: ds | .published _ :: ds => Carved ds

instance decidableCarved : (ds : List Dealing) → Decidable (Carved ds)
  | [] => .isTrue trivial
  | .lent _ :: ds => @instDecidableAnd _ _ inferInstance (decidableCarved ds)
  | .returned _ :: ds => decidableCarved ds
  | .published _ :: ds => decidableCarved ds

/-- At all times what was published was live, and every slot was lent inside a page. -/
inductive Honest : List Dealing → Prop
  | nil : Honest []
  | cons {d : Dealing} {ds : List Dealing} (hlent : ∀ s, d = .lent s → s.InPage)
      (hlive : (published (d :: ds)).val ≤ live (d :: ds)) (hds : Honest ds) : Honest (d :: ds)

variable {s t : Slot} {d : Dealing} {ds later earlier : List Dealing}

theorem published_subset (d : Dealing) (ds : List Dealing) :
    published ds ⊆ published (d :: ds) := by
  cases d with
  | lent s => exact Finset.Subset.refl _
  | returned s => exact Finset.Subset.refl _
  | published s => exact Finset.subset_insert s _

theorem Carved.of_cons (hc : Carved (d :: ds)) : Carved ds := by
  cases d with
  | lent s => exact hc.2
  | returned s => exact hc
  | published s => exact hc

theorem Honest.published_le (hd : Honest ds) : (published ds).val ≤ live ds := by
  cases hd with
  | nil => exact Multiset.zero_le _
  | cons _ hlive _ => exact hlive

theorem Honest.inPage_of_mem_live (hd : Honest ds) (ht : t ∈ live ds) : t.InPage := by
  induction hd with
  | nil => exact absurd ht (Multiset.notMem_zero t)
  | @cons d ds hlent _ _ ih =>
      cases d with
      | lent s =>
          rcases Multiset.mem_cons.mp ht with rfl | ht
          · exact hlent t rfl
          · exact ih ht
      | returned s => exact ih (Multiset.mem_of_mem_erase ht)
      | published s => exact ih ht

theorem Honest.of_append (hd : Honest (later ++ ds)) : Honest ds := by
  induction later with
  | nil => exact hd
  | cons d later ih =>
      cases hd with
      | cons _ _ hrest => exact ih hrest

theorem Carved.of_append (hc : Carved (later ++ ds)) : Carved ds := by
  induction later with
  | nil => exact hc
  | cons d later ih => exact ih hc.of_cons

/-- What was published is never lent again. -/
theorem Honest.not_overlaps (hd : Honest ds) (hc : Carved ds)
    (hsplit : ds = later ++ .lent s :: earlier) (ht : t ∈ published earlier) :
    ¬ s.Overlaps t := by
  subst hsplit
  cases hd.of_append with
  | cons hlent _ hearlier =>
      -- what was published is live, so the condition tells `s` and `t` apart on one page, and two
      -- slots on different pages are apart anyway
      have hlive : t ∈ live earlier := Multiset.mem_of_le hearlier.published_le ht
      intro hover
      have hbase := (hlent s rfl).base_eq (hearlier.inPage_of_mem_live hlive) hover
      exact hc.of_append.1 t hlive hbase hover

end Dealings

/-! ## Where slots are carved -/

structure PoolPage.Whole (p : PoolPage) : Prop where
  aligned : p.base % pageSize = 0
  length : p.length = pageSize

theorem PoolPage.Whole.inPage {p : PoolPage} {s : Slot} {size : Nat} (hp : p.Whole)
    (hs : p.Carved size s) : s.InPage where
  aligned := by
    rw [hs.base]
    exact hp.aligned
  fits := by
    rw [hs.length, ← hp.length]
    exact hs.fits

namespace Pool

variable {pool : Pool} {pages pages' : List PoolPage} {origin : Address} {size : Nat} {m : Memory}

theorem SamePages.whole (hsame : SamePages pages' pages) (hw : ∀ p ∈ pages, p.Whole) :
    ∀ p ∈ pages', p.Whole := by
  intro p hp
  have hmem : (p.base, p.length) ∈ pages'.map fun p ↦ (p.base, p.length) :=
    List.mem_map_of_mem hp
  rw [hsame] at hmem
  obtain ⟨q, hq, heq⟩ := List.mem_map.mp hmem
  obtain ⟨hbase, hlength⟩ := Prod.mk.inj heq
  exact ⟨hbase ▸ (hw q hq).aligned, hlength ▸ (hw q hq).length⟩

/-- A request for at most a page is served from a whole page, and all pages stay whole. -/
theorem allocate_whole (hs : pool.Sound) (hw : ∀ p ∈ pool.pages, p.Whole) (hsize : size ≤ pageSize)
    (m : Memory) (origin : Address) :
    (∀ p ∈ (pool.allocate m origin size).2.1.pages, p.Whole) ∧
      ∀ s, (pool.allocate m origin size).1 = some s → s.InPage := by
  have hcourse := allocate_course pool m origin size
  generalize pool.allocate m origin size = result at hcourse
  cases hcourse with
  | reused hreuse =>
      obtain ⟨-, hsame, p, hp, hcarved⟩ := reuse?_spec hs hreuse
      refine ⟨hsame.whole hw, ?_⟩
      rintro s ⟨⟩
      exact (hw p hp).inPage hcarved
  | failed => exact ⟨hw, nofun⟩
  | @mapped n p slot _ _ hserve =>
      obtain ⟨-, hbase, hlength, hcarved⟩ :=
        PoolPage.serve?_spec (PoolPage.sound_fresh _ _) hserve
      have hfresh : (PoolPage.fresh (n * pageSize) (pageCount size * pageSize)).Whole := by
        refine ⟨Nat.mul_mod_left n pageSize, ?_⟩
        rw [pageCount_of_le hsize]
        exact Nat.one_mul pageSize
      refine ⟨List.forall_mem_append.mpr ⟨hw, List.forall_mem_singleton.mpr ?_⟩, ?_⟩
      · exact ⟨hbase ▸ hfresh.aligned, hlength.trans hfresh.length⟩
      · rintro s ⟨⟩
        exact hfresh.inPage hcarved

end Pool

end HotPatch.Trampoline
