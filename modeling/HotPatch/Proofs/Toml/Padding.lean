import HotPatch.Proofs.Toml.Entries
import HotPatch.Toml.Reader

/-!
# More entries in a table

A table that finds all that another one finds, and more, has the same entries with others in
between: both have their keys in order. Every table of a document that was read is such a table.
-/

namespace HotPatch.Toml

/-! ## Entries in between -/

section

variable {α : Type} {P Q : String × α → Prop} {R : String → α → α → Prop} {k : String} {x : α}
  {e : String × α} {es es' : List (String × α)}

/-- The second table finds under each key of the first what is related to what was there, and under
further keys what satisfies `P`. -/
structure Extends (P : String × α → Prop) (R : String → α → α → Prop)
    (es es' : List (String × α)) : Prop where
  kept : ∀ k x, lookup k es = some x → ∃ x', lookup k es' = some x' ∧ R k x x'
  added : ∀ k x, lookup k es' = some x → lookup k es = none → P (k, x)

/-- Entries that satisfy `P` were put between the others, which have something related to what they
had. -/
inductive Padded (P : String × α → Prop) (R : String → α → α → Prop) :
    List (String × α) → List (String × α) → Prop
  | nil : Padded P R [] []
  | added {e : String × α} {es es' : List (String × α)} (he : P e) (h : Padded P R es es') :
      Padded P R es (e :: es')
  | kept {k : String} {x x' : α} {es es' : List (String × α)} (hx : R k x x')
      (h : Padded P R es es') : Padded P R ((k, x) :: es) ((k, x') :: es')

theorem lookup_eq_none_of_lt (hes : Ordered ((k, x) :: es)) {k' : String} (hlt : k' < k) :
    lookup k' ((k, x) :: es) = none := by
  obtain ⟨hhead, -⟩ := List.pairwise_cons.mp hes
  refine lookup_eq_none_iff.mpr fun hmem ↦ ?_
  rcases List.mem_cons.mp hmem with rfl | hmem
  · exact lt_irrefl _ hlt
  · exact lt_irrefl _ (hlt.trans (hhead k' hmem))

theorem lookup_head_eq_none (hes : Ordered ((k, x) :: es)) : lookup k es = none :=
  lookup_eq_none_iff.mpr (List.nodup_cons.mp hes.nodup).1

theorem mem_of_lookup (h : lookup k es = some x) : (k, x) ∈ es := by
  induction es with
  | nil => cases h
  | cons e es ih =>
      rw [lookup] at h
      split at h
      · rename_i heq
        cases h
        exact heq ▸ List.mem_cons_self ..
      · exact List.mem_cons_of_mem e (ih h)

theorem Padded.imp {R' : String → α → α → Prop} (h : Padded P R es es')
    (hR : ∀ k x x', R k x x' → R' k x x') : Padded P R' es es' := by
  induction h with
  | nil => exact .nil
  | added he _ ih => exact .added he ih
  | kept hx _ ih => exact .kept (hR _ _ _ hx) ih

theorem Padded.refl (hR : ∀ k x, R k x x) : Padded P R es es := by
  induction es with
  | nil => exact .nil
  | cons e es ih => exact .kept (hR e.1 e.2) ih

namespace Padded

/-- What was found before the padding is found behind it. -/
theorem lookup (h : Padded P R es es') (hes' : Ordered es') (hx : lookup k es = some x) :
    ∃ x', Toml.lookup k es' = some x' ∧ R k x x' := by
  induction h with
  | nil => cases hx
  | @added e es es' _ _ ih =>
      obtain ⟨x', hx', hrel⟩ := ih (List.pairwise_cons.mp hes').2 hx
      refine ⟨x', ?_, hrel⟩
      rw [Toml.lookup, if_neg, hx']
      rintro rfl
      exact (List.nodup_cons.mp hes'.nodup).1 (List.mem_map.mpr ⟨_, mem_of_lookup hx', rfl⟩)
  | @kept k' y y' es es' hrel _ ih =>
      rw [Toml.lookup] at hx ⊢
      split at hx
      · rename_i heq
        cases hx
        subst heq
        exact ⟨y', if_pos rfl, hrel⟩
      · rename_i hne
        obtain ⟨x', hx', hrel'⟩ := ih (List.pairwise_cons.mp hes').2 hx
        exact ⟨x', (if_neg hne).trans hx', hrel'⟩

/-- What counts in the second table counts in the first one. If as many entries count in both, then
whatever counts in the first one does so in the second. -/
theorem countP {c : String × α → Bool} (h : Padded P R es es') (hP : ∀ e, P e → c e = false)
    (hR : ∀ k x x', R k x x' → c (k, x') = true → c (k, x) = true) :
    es'.countP c ≤ es.countP c ∧ (es'.countP c = es.countP c →
      Padded P (fun k x x' ↦ R k x x' ∧ (c (k, x) = true → c (k, x') = true)) es es') := by
  induction h with
  | nil => exact ⟨Nat.le_refl _, fun _ ↦ .nil⟩
  | @added e es es' he _ ih =>
      rw [List.countP_cons_of_neg (by simp [hP e he])]
      exact ⟨ih.1, fun heq ↦ .added he (ih.2 heq)⟩
  | @kept k x x' es es' hrel _ ih =>
      by_cases hc' : c (k, x') = true
      · rw [List.countP_cons_of_pos hc', List.countP_cons_of_pos (hR k x x' hrel hc')]
        exact ⟨Nat.succ_le_succ ih.1,
          fun heq ↦ .kept ⟨hrel, fun _ ↦ hc'⟩ (ih.2 (Nat.succ.inj heq))⟩
      · rw [List.countP_cons_of_neg hc']
        by_cases hc : c (k, x) = true
        -- one entry fewer counts, so the numbers differ
        · rw [List.countP_cons_of_pos hc]
          exact ⟨Nat.le_succ_of_le ih.1, fun heq ↦ absurd (heq ▸ ih.1) (Nat.not_succ_le_self _)⟩
        · rw [List.countP_cons_of_neg hc]
          exact ⟨ih.1, fun heq ↦ .kept ⟨hrel, fun h ↦ absurd h hc⟩ (ih.2 heq)⟩

end Padded

theorem Ordered.tail (hes : Ordered (e :: es)) : Ordered es := (List.pairwise_cons.mp hes).2

namespace Extends

/-- The first key is one of the further ones. -/
theorem tail_right (h : Extends P R es ((k, x) :: es')) (hk : lookup k es = none)
    (hes' : Ordered ((k, x) :: es')) : Extends P R es es' where
  kept j y hj := by
    obtain ⟨y', hy', hrel⟩ := h.kept j y hj
    refine ⟨y', ?_, hrel⟩
    rw [lookup, if_neg] at hy'
    · exact hy'
    · rintro rfl
      rw [hk] at hj
      cases hj
  added j y hj hnone := by
    refine h.added j y ?_ hnone
    rw [lookup, if_neg]
    · exact hj
    · rintro rfl
      rw [lookup_head_eq_none hes'] at hj
      cases hj

/-- Both have the same first key. -/
theorem tail {x' : α} (h : Extends P R ((k, x) :: es) ((k, x') :: es'))
    (hes : Ordered ((k, x) :: es)) (hes' : Ordered ((k, x') :: es')) : Extends P R es es' where
  kept j y hj := by
    have hne : k ≠ j := by
      rintro rfl
      rw [lookup_head_eq_none hes] at hj
      cases hj
    have hall := h.kept j y
    rw [lookup, lookup, if_neg hne, if_neg hne] at hall
    exact hall hj
  added j y hj hnone := by
    have hne : k ≠ j := by
      rintro rfl
      rw [lookup_head_eq_none hes'] at hj
      cases hj
    have hall := h.added j y
    rw [lookup, lookup, if_neg hne, if_neg hne] at hall
    exact hall hj hnone

/-- Where keys are in order, the further entries stand in between. -/
theorem padded (h : Extends P R es es') (hes : Ordered es) (hes' : Ordered es') :
    Padded P R es es' := by
  induction es' generalizing es with
  | nil =>
      cases es with
      | nil => exact .nil
      | cons e es =>
          obtain ⟨x', hx', -⟩ := h.kept e.1 e.2 (if_pos rfl)
          cases hx'
  | cons e' es' ih =>
      obtain ⟨k', x'⟩ := e'
      have hfirst : lookup k' ((k', x') :: es') = some x' := if_pos rfl
      cases es with
      | nil =>
          exact .added (h.added k' x' hfirst rfl) (ih (h.tail_right rfl hes') hes hes'.tail)
      | cons e es =>
          obtain ⟨k, x⟩ := e
          rcases lt_trichotomy k' k with hlt | rfl | hlt
          · have hnone := lookup_eq_none_of_lt hes hlt
            exact .added (h.added k' x' hfirst hnone)
              (ih (h.tail_right hnone hes') hes hes'.tail)
          · obtain ⟨y, hy, hrel⟩ := h.kept k' x (if_pos rfl)
            cases hfirst.symm.trans hy
            exact .kept hrel (ih (h.tail hes hes') hes.tail hes'.tail)
          -- what is smaller than all keys cannot be found
          · obtain ⟨y, hy, -⟩ := h.kept k x (if_pos rfl)
            rw [lookup_eq_none_of_lt hes' hlt] at hy
            cases hy

end Extends

/-- Conversely, what stands in between is found under further keys. -/
theorem Padded.extends (h : Padded P R es es') (hes' : Ordered es') : Extends P R es es' where
  kept k x hx := h.lookup hes' hx
  added k x hx hnone := by
    induction h with
    | nil => cases hx
    | @added e es es' he _ ih =>
        rw [Toml.lookup] at hx
        split at hx
        · rename_i heq
          cases hx
          exact heq ▸ he
        · exact ih hes'.tail hx hnone
    | @kept k' y y' es es' _ _ ih =>
        rw [Toml.lookup] at hx hnone
        split at hnone
        · cases hnone
        · rename_i hne
          exact ih hes'.tail ((if_neg hne).symm.trans hx) hnone

end

/-! ## Tables that were read -/

def Value.Meant (v : Value) : Prop := ∃ w : Value, w.meaning? = some v

theorem meant_of_entries {es d : List (String × Value)} (h : meaningOfEntries? es = some d) :
    Ordered d ∧ ∀ e ∈ d, e.2.Meant := by
  induction es generalizing d with
  | nil =>
      cases h
      exact ⟨ordered_nil, List.forall_mem_nil _⟩
  | cons e es ih =>
      obtain ⟨k, v⟩ := e
      rw [meaningOfEntries?] at h
      split at h
      · rename_i w ds hv hes
        cases h
        obtain ⟨hordered, hmeant⟩ := ih hes
        refine ⟨hordered.insert k w, fun e he ↦ ?_⟩
        rcases mem_insert he with rfl | he
        · exact ⟨v, hv⟩
        · exact hmeant e he
      · cases h

theorem meant_of_items {vs ws : List Value} (h : meaningOfItems? vs = some ws) :
    ∀ w ∈ ws, w.Meant := by
  induction vs generalizing ws with
  | nil =>
      cases h
      exact List.forall_mem_nil _
  | cons v vs ih =>
      rw [meaningOfItems?] at h
      split at h
      · rename_i w ws' hv hvs
        cases h
        exact List.forall_mem_cons.mpr ⟨⟨v, hv⟩, ih hvs⟩
      · cases h

theorem Value.eq_moment_of_momentIn? {v w : Value} (h : v.momentIn? = some w) :
    ∃ text, w = .moment text := by
  unfold Value.momentIn? at h
  split at h
  · obtain ⟨text, -, rfl⟩ := Option.map_eq_some_iff.mp h
    exact ⟨_, rfl⟩
  · cases h

theorem Value.Meant.table {es : List (String × Value)} (h : (Value.table es).Meant) :
    Ordered es ∧ ∀ e ∈ es, e.2.Meant := by
  obtain ⟨w, hw⟩ := h
  cases w with
  | table ws =>
      rw [Value.meaning?] at hw
      split at hw
      · obtain ⟨text, heq⟩ := Value.eq_moment_of_momentIn? hw
        cases heq
      · obtain ⟨d, hd, heq⟩ := Option.map_eq_some_iff.mp hw
        cases heq
        exact meant_of_entries hd
  | array items =>
      rw [Value.meaning?] at hw
      obtain ⟨ws, -, heq⟩ := Option.map_eq_some_iff.mp hw
      cases heq
  | string s => cases hw
  | integer i => cases hw
  | float x => cases hw
  | boolean b => cases hw
  | moment text => cases hw

theorem Value.Meant.array {vs : List Value} (h : (Value.array vs).Meant) : ∀ v ∈ vs, v.Meant := by
  obtain ⟨w, hw⟩ := h
  cases w with
  | table ws =>
      rw [Value.meaning?] at hw
      split at hw
      · obtain ⟨text, heq⟩ := Value.eq_moment_of_momentIn? hw
        cases heq
      · obtain ⟨d, hd, heq⟩ := Option.map_eq_some_iff.mp hw
        cases heq
  | array items =>
      rw [Value.meaning?] at hw
      obtain ⟨ws, hws, heq⟩ := Option.map_eq_some_iff.mp hw
      cases heq
      exact meant_of_items hws
  | string s => cases hw
  | integer i => cases hw
  | float x => cases hw
  | boolean b => cases hw
  | moment text => cases hw

theorem Document.meant_of_read {text : String} {d : Document}
    (h : Document.read? text = some d) : Ordered d ∧ ∀ e ∈ d, e.2.Meant := by
  unfold Document.read? at h
  dsimp only at h
  split at h
  · unfold Document.ofStatements? at h
    split at h
    · exact meant_of_entries h
    · cases h
  · cases h

/-! ## Values without moments -/

section

variable {P Q : String × Value → Prop} {es es' fs' : List (String × Value)}

theorem entriesWithoutMoments?_isSome_iff :
    (entriesWithoutMoments? es).isSome ↔ ∀ e ∈ es, e.2.withoutMoments?.isSome := by
  induction es with
  | nil => exact iff_of_true rfl (List.forall_mem_nil _)
  | cons e es ih =>
      obtain ⟨k, v⟩ := e
      rw [entriesWithoutMoments?, List.forall_mem_cons, ← ih]
      cases v.withoutMoments? with
      | none => simp
      | some w => cases entriesWithoutMoments? es <;> simp

/-- Further entries stay in between. -/
theorem Padded.withoutMoments (h : Padded P (fun _ x x' ↦ x' = x) es es')
    (hPQ : ∀ k v w, P (k, v) → v.withoutMoments? = some w → Q (k, w))
    (hfs' : entriesWithoutMoments? es' = some fs') :
    ∃ fs, entriesWithoutMoments? es = some fs ∧ Padded Q (fun _ x x' ↦ x' = x) fs fs' := by
  induction h generalizing fs' with
  | nil =>
      cases hfs'
      exact ⟨[], rfl, .nil⟩
  | @added e es es' he _ ih =>
      obtain ⟨k, v⟩ := e
      rw [entriesWithoutMoments?] at hfs'
      split at hfs'
      · rename_i w ws hv hes'
        cases hfs'
        obtain ⟨fs, hfs, hpadded⟩ := ih hes'
        exact ⟨fs, hfs, .added (hPQ k v w he hv) hpadded⟩
      · cases hfs'
  | @kept k v v' es es' hsame _ ih =>
      subst hsame
      rw [entriesWithoutMoments?] at hfs'
      split at hfs'
      · rename_i w ws hv hes'
        cases hfs'
        obtain ⟨fs, hfs, hpadded⟩ := ih hes'
        refine ⟨(k, w) :: fs, ?_, .kept rfl hpadded⟩
        rw [entriesWithoutMoments?, hv, hfs]
      · cases hfs'

end

end HotPatch.Toml
