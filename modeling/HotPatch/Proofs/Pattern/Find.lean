import HotPatch.Pattern.Basic
import HotPatch.Proofs.Memory.Bytes

/-!
# The first place of a pattern

Trying every offset in turn finds the first place at which a pattern fits.
-/

namespace HotPatch

variable {P Q : Nat → Prop} {o : Option Nat} {a : Nat}

def IsFirst (P : Nat → Prop) : Option Nat → Prop
  | some a => P a ∧ ∀ b, b < a → ¬ P b
  | none => ∀ a, ¬ P a

theorem IsFirst.congr (h : IsFirst P o) (hiff : ∀ a, P a ↔ Q a) : IsFirst Q o := by
  cases o <;> simpa only [IsFirst, hiff] using h

theorem IsFirst.eq_some_iff (h : IsFirst P o) : o = some a ↔ P a ∧ ∀ b, b < a → ¬ P b := by
  cases o with
  | none => exact iff_of_false nofun fun ha ↦ h a ha.1
  | some b =>
      constructor
      · rintro ⟨⟩
        exact h
      · intro ha
        rcases Nat.lt_trichotomy a b with hlt | rfl | hlt
        · exact absurd ha.1 (h.2 a hlt)
        · rfl
        · exact absurd h.1 (ha.2 b hlt)

/-- Where the numbers with one property come before those with the other, the first of either is the
first of the one, if there is any. -/
theorem IsFirst.or {o' : Option Nat} (h : IsFirst P o) (h' : IsFirst Q o')
    (hlt : ∀ a b, P a → Q b → a < b) : IsFirst (fun a ↦ P a ∨ Q a) (o.or o') := by
  cases o with
  | some a =>
      refine ⟨.inl h.1, fun b hb hor ↦ ?_⟩
      rcases hor with hp | hq
      · exact h.2 b hb hp
      · exact Nat.lt_asymm hb (hlt a b h.1 hq)
  | none => exact h'.congr fun a ↦ (or_iff_right (h a)).symm

namespace Pattern

variable {p : Pattern} {m : Memory} {n : Nat}

theorem length_pos (p : Pattern) : 0 < p.length := List.length_pos_iff.mpr p.nonempty

def Suits (p : Pattern) (m : Memory) (a : Nat) : Prop :=
  ∀ (i : Nat) (q : Position), p.positions[i]? = some q → q.admits (m.byte (a + i)) = true

theorem suits_iff (p : Pattern) :
    p.Suits m n ↔ ∀ i b, p.positions[i]? = some (.exact b) → m.byte (n + i) = b := by
  constructor
  · intro h i b hi
    exact (beq_iff_eq.mp (h i _ hi)).symm
  · intro h i q hi
    cases q with
    | exact b => exact beq_iff_eq.mpr (h i b hi).symm
    | wildcard => rfl

theorem startsWith_bytes_iff (ps : List Position) (m : Memory) (a n : Nat) :
    startsWith ps (m.bytes a n) = true ↔
      ps.length ≤ n ∧
        ∀ (i : Nat) (q : Position), ps[i]? = some q → q.admits (m.byte (a + i)) = true := by
  induction ps generalizing a n with
  | nil => simp [startsWith]
  | cons q ps ih =>
      cases n with
      | zero => simp [startsWith, Memory.bytes]
      | succ n =>
          rw [Memory.bytes_succ, startsWith, Bool.and_eq_true, ih]
          constructor
          · rintro ⟨hq, hlen, hps⟩
            refine ⟨Nat.succ_le_succ hlen, fun i r hi ↦ ?_⟩
            cases i with
            | zero => simpa [← Option.some.inj hi] using hq
            | succ i => simpa only [Nat.add_assoc, Nat.add_comm 1] using hps i r hi
          · rintro ⟨hlen, hps⟩
            refine ⟨by simpa using hps 0 q rfl, Nat.le_of_succ_le_succ hlen, fun i r hi ↦ ?_⟩
            simpa only [Nat.add_assoc, Nat.add_comm 1] using hps (i + 1) r hi

theorem fits_bytes_iff (p : Pattern) (m : Memory) (a n : Nat) :
    p.fits (m.bytes a n) = true ↔ p.length ≤ n ∧ p.Suits m a :=
  startsWith_bytes_iff p.positions m a n

/-- What is found is the least place from `a + k` on where the pattern suits. -/
theorem findFrom_bytes (p : Pattern) (m : Memory) (a k n : Nat) :
    IsFirst (fun b ↦ a + k ≤ b ∧ b + p.length ≤ a + k + n ∧ p.Suits m b)
      ((p.findFrom k (m.bytes (a + k) n)).map (a + ·)) := by
  induction n generalizing k with
  | zero =>
      intro b hb
      have := p.length_pos
      omega
  | succ n ih =>
      have hfits := p.fits_bytes_iff m (a + k) (n + 1)
      rw [Memory.bytes_succ] at hfits ⊢
      rw [findFrom]
      split
      · rename_i hfit
        have hhere := hfits.mp hfit
        exact ⟨⟨Nat.le_refl _, Nat.add_le_add_left hhere.1 _, hhere.2⟩,
          fun b hb hbad ↦ Nat.not_le.mpr hb hbad.1⟩
      · rename_i hnot
        apply (ih (k + 1)).congr
        intro b
        constructor
        · rintro ⟨hb, hlen, hsuits⟩
          exact ⟨by omega, by omega, hsuits⟩
        · rintro ⟨hb, hlen, hsuits⟩
          refine ⟨?_, by omega, hsuits⟩
          rcases Nat.eq_or_lt_of_le hb with rfl | hlt
          · exact absurd (hfits.mpr ⟨by omega, hsuits⟩) hnot
          · omega

/-- A search through `[a, a + n)` finds the first place at which the whole pattern fits. -/
theorem find_bytes (p : Pattern) (m : Memory) (a n : Nat) :
    IsFirst (fun b ↦ a ≤ b ∧ b + p.length ≤ a + n ∧ p.Suits m b)
      ((p.find (m.bytes a n)).map (a + ·)) :=
  p.findFrom_bytes m a 0 n

end Pattern

end HotPatch
