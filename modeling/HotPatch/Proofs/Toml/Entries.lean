import HotPatch.Toml.Written
import Mathlib.Data.List.Nodup
import Mathlib.Data.String.Basic

/-!
# Entries of tables

A table is put together entry by entry. Its keys are in order then, so each of them stands there
once, and what it finds is what was put there last.
-/

namespace HotPatch.Toml

variable {α : Type} {k : String} {x : α} {e : String × α} {es acc : List (String × α)}

def Ordered (es : List (String × α)) : Prop := (es.map Prod.fst).Pairwise (· < ·)

theorem ordered_nil : Ordered ([] : List (String × α)) := .nil

theorem Ordered.nodup (hes : Ordered es) : (es.map Prod.fst).Nodup := hes.imp ne_of_lt

def gather (es : List (String × α)) : List (String × α) :=
  es.foldl (fun acc e ↦ insert e.1 e.2 acc) []

theorem mem_insert (he : e ∈ insert k x es) : e = (k, x) ∨ e ∈ es := by
  induction es with
  | nil => exact .inl (List.mem_singleton.mp he)
  | cons d es ih =>
      rw [insert] at he
      split at he
      · exact (List.mem_cons.mp he).imp_right (List.mem_cons_of_mem d)
      · split at he
        · exact List.mem_cons.mp he
        · rcases List.mem_cons.mp he with rfl | he
          · exact .inr List.mem_cons_self
          · exact (ih he).imp_right (List.mem_cons_of_mem d)

theorem Ordered.insert (hes : Ordered es) (k : String) (x : α) : Ordered (insert k x es) := by
  induction es with
  | nil => exact List.pairwise_singleton _ k
  | cons d es ih =>
      obtain ⟨hd, hrest⟩ := List.pairwise_cons.mp hes
      rw [Toml.insert]
      split
      · rename_i hsame
        subst hsame
        exact hes
      · split
        · rename_i hlt
          refine List.pairwise_cons.mpr ⟨fun k' hk' ↦ ?_, hes⟩
          rcases List.mem_cons.mp hk' with rfl | hk'
          · exact hlt
          · exact hlt.trans (hd k' hk')
        · rename_i hne hnot
          refine List.pairwise_cons.mpr ⟨fun k' hk' ↦ ?_, ih hrest⟩
          obtain ⟨e, he, rfl⟩ := List.mem_map.mp hk'
          rcases mem_insert he with rfl | he
          · exact lt_of_le_of_ne (not_lt.mp hnot) (Ne.symm hne)
          · exact hd e.1 (List.mem_map_of_mem he)

theorem ordered_foldl (hacc : Ordered acc) (es : List (String × α)) :
    Ordered (es.foldl (fun acc e ↦ insert e.1 e.2 acc) acc) := by
  induction es generalizing acc with
  | nil => exact hacc
  | cons e es ih => exact ih (hacc.insert e.1 e.2)

theorem ordered_gather (es : List (String × α)) : Ordered (gather es) :=
  ordered_foldl ordered_nil es

theorem mem_foldl (he : e ∈ es.foldl (fun acc e ↦ insert e.1 e.2 acc) acc) :
    e ∈ es ∨ e ∈ acc := by
  induction es generalizing acc with
  | nil => exact .inr he
  | cons d es ih =>
      rcases ih he with he | he
      · exact .inl (List.mem_cons_of_mem d he)
      · rcases mem_insert he with rfl | he
        · exact .inl List.mem_cons_self
        · exact .inr he

theorem mem_gather (he : e ∈ gather es) : e ∈ es :=
  (mem_foldl he).resolve_right List.not_mem_nil

theorem lookup_eq_none_iff : lookup k es = none ↔ k ∉ es.map Prod.fst := by
  induction es with
  | nil => exact iff_of_true rfl List.not_mem_nil
  | cons e es ih =>
      rw [lookup, List.map_cons, List.mem_cons, not_or, ← ih]
      split
      · rename_i hsame
        exact iff_of_false (Option.some_ne_none _) fun hnot ↦ hnot.1 hsame.symm
      · rename_i hne
        exact (and_iff_right (Ne.symm hne)).symm

theorem lookup_of_mem (hes : (es.map Prod.fst).Nodup) (hmem : (k, x) ∈ es) :
    lookup k es = some x := by
  induction es with
  | nil => cases hmem
  | cons e es ih =>
      obtain ⟨hfresh, hrest⟩ := List.nodup_cons.mp hes
      rw [lookup]
      rcases List.mem_cons.mp hmem with rfl | hmem
      · exact if_pos rfl
      · have hother : e.1 ≠ k := by
          rintro rfl
          exact hfresh (List.mem_map.mpr ⟨(e.1, x), hmem, rfl⟩)
        rw [if_neg hother, ih hrest hmem]

/-- Entries under different keys are found again, in place of what was there before. -/
theorem lookup_foldl (hes : (es.map Prod.fst).Nodup) (acc : List (String × α)) (k : String) :
    lookup k (es.foldl (fun acc e ↦ insert e.1 e.2 acc) acc) =
      (lookup k es).or (lookup k acc) := by
  induction es generalizing acc with
  | nil => rfl
  | cons e es ih =>
      obtain ⟨hfresh, hrest⟩ := List.nodup_cons.mp hes
      rw [List.foldl_cons, ih hrest, lookup_insert, lookup]
      split
      · rename_i hsame
        subst hsame
        rw [lookup_eq_none_iff.mpr hfresh, Option.none_or, Option.some_or]
      · rfl

/-- Where no key comes up twice, each finds what was put under it. -/
theorem lookup_gather (hes : (es.map Prod.fst).Nodup) (k : String) :
    lookup k (gather es) = lookup k es :=
  (lookup_foldl hes [] k).trans Option.or_none

/-! ## A table of what some of a list have to say -/

section

variable {β : Type} {key : β → String} {f : β → Option α} {ys : List β} {y : β}

def entriesOf (key : β → String) (f : β → Option α) (ys : List β) : List (String × α) :=
  ys.filterMap fun y ↦ (f y).map (Prod.mk (key y))

theorem mem_entriesOf : e ∈ entriesOf key f ys ↔ ∃ y ∈ ys, ∃ x, f y = some x ∧ (key y, x) = e := by
  simp only [entriesOf, List.mem_filterMap, Option.map_eq_some_iff]

theorem entriesOf_congr {zs : List β}
    (hsame : zs.map (fun z ↦ (key z, f z)) = ys.map fun y ↦ (key y, f y)) :
    entriesOf key f zs = entriesOf key f ys := by
  have hpairs (ys : List β) : entriesOf key f ys =
      (ys.map fun y ↦ (key y, f y)).filterMap fun e ↦ e.2.map (Prod.mk e.1) := by
    rw [List.filterMap_map]
    rfl
  rw [hpairs, hsame, ← hpairs]

theorem nodup_entriesOf (hys : (ys.map key).Nodup) :
    ((entriesOf key f ys).map Prod.fst).Nodup := by
  induction ys with
  | nil => exact .nil
  | cons y ys ih =>
      obtain ⟨hfresh, hrest⟩ := List.nodup_cons.mp hys
      rw [entriesOf, List.filterMap_cons]
      split
      · exact ih hrest
      · rename_i e hsome
        obtain ⟨x, -, rfl⟩ := Option.map_eq_some_iff.mp hsome
        refine List.nodup_cons.mpr ⟨fun hmem ↦ ?_, ih hrest⟩
        obtain ⟨e, he, hsame⟩ := List.mem_map.mp hmem
        obtain ⟨z, hz, x', -, rfl⟩ := mem_entriesOf.mp he
        exact hfresh (List.mem_map.mpr ⟨z, hz, hsame⟩)

theorem lookup_entriesOf (hys : (ys.map key).Nodup) (hy : y ∈ ys) :
    lookup (key y) (gather (entriesOf key f ys)) = f y := by
  have hnodup := nodup_entriesOf (f := f) hys
  rw [lookup_gather hnodup]
  cases hf : f y with
  | some x => exact lookup_of_mem hnodup (mem_entriesOf.mpr ⟨y, hy, x, hf, rfl⟩)
  | none =>
      refine lookup_eq_none_iff.mpr fun hmem ↦ ?_
      obtain ⟨e, he, hsame⟩ := List.mem_map.mp hmem
      obtain ⟨z, hz, x, hx, rfl⟩ := mem_entriesOf.mp he
      -- no other member has the same key
      obtain rfl : z = y := List.inj_on_of_nodup_map hys hz hy hsame
      cases hf.symm.trans hx

end

end HotPatch.Toml
