import HotPatch.Pattern.Text

/-!
# Splitting at blanks

A text is in exactly one way a row of words with blanks between them, and cutting it at its blanks
finds these words.
-/

namespace HotPatch.Text

variable {c d : Char} {s w : List Char} {ws : List (List Char)}

structure IsWord (w : List Char) : Prop where
  nonempty : w ≠ []
  not_blank : ∀ c ∈ w, isBlank c = false

/-- `s` is made of the words `ws`, in order, with at least one blank between any two and any number
of them at either end. -/
inductive Splits : List Char → List (List Char) → Prop
  | nil : Splits [] []
  | blank {c : Char} {s : List Char} {ws : List (List Char)} (hc : isBlank c = true)
      (rest : Splits s ws) : Splits (c :: s) ws
  | word {w s : List Char} {ws : List (List Char)} (hw : IsWord w)
      (ends : ∀ c, s.head? = some c → isBlank c = true) (rest : Splits s ws) :
      Splits (w ++ s) (w :: ws)

theorem isWord_singleton (hc : isBlank c = false) : IsWord [c] :=
  ⟨by simp, by simpa using hc⟩

theorem IsWord.cons (hc : isBlank c = false) (hw : IsWord w) : IsWord (c :: w) :=
  ⟨by simp, List.forall_mem_cons.mpr ⟨hc, hw.not_blank⟩⟩

/-! ## Cutting a text with one more character in front -/

theorem words_cons (c : Char) (s : List Char) :
    words (c :: s) =
      if isBlank c then words s
      else
        match s, words s with
        | d :: _, w :: ws => if isBlank d then [c] :: w :: ws else (c :: w) :: ws
        | _, ws => [c] :: ws := rfl

theorem words_blank (hc : isBlank c = true) : words (c :: s) = words s :=
  (words_cons c s).trans (if_pos hc)

/-- A character in front of a blank, or of nothing, is a word. -/
theorem words_single (hc : isBlank c = false) (ends : ∀ d, s.head? = some d → isBlank d = true) :
    words (c :: s) = [c] :: words s := by
  rw [words_cons, hc]
  cases s with
  | nil => rfl
  | cons d s =>
      have hd : isBlank d = true := ends d rfl
      cases words (d :: s) <;> simp [hd]

/-- A character in front of a word belongs to it. -/
theorem words_longer (hc : isBlank c = false) (hd : isBlank d = false)
    (hs : words (d :: s) = w :: ws) : words (c :: d :: s) = (c :: w) :: ws := by
  rw [words_cons, hc, hs]
  simp [hd]

/-- A word in front of a blank is cut off as a whole. -/
theorem words_append (hw : IsWord w) (ends : ∀ c, s.head? = some c → isBlank c = true) :
    words (w ++ s) = w :: words s := by
  induction w with
  | nil => exact absurd rfl hw.nonempty
  | cons c w ih =>
      obtain ⟨hc, hrest⟩ := List.forall_mem_cons.mp hw.not_blank
      cases w with
      | nil => exact words_single hc ends
      | cons d w => exact words_longer hc (hrest d List.mem_cons_self) (ih ⟨by simp, hrest⟩)

/-! ## The words that are found -/

/-- What begins without a blank begins with the first of its words. -/
theorem Splits.first_word (h : Splits (d :: s) ws) (hd : isBlank d = false) :
    ∃ w rest vs, ws = w :: vs ∧ w ++ rest = d :: s ∧ IsWord w ∧
      (∀ c, rest.head? = some c → isBlank c = true) ∧ Splits rest vs := by
  obtain ⟨text, htext⟩ : ∃ text, text = d :: s := ⟨_, rfl⟩
  rw [← htext] at h
  cases h with
  | nil => cases htext
  | blank hblank =>
      cases htext
      cases hd.symm.trans hblank
  | word hw ends rest => exact ⟨_, _, _, rfl, htext, hw, ends, rest⟩

theorem Splits.cons (hc : isBlank c = false) (h : Splits s (words s)) :
    Splits (c :: s) (words (c :: s)) := by
  cases s with
  | nil =>
      rw [words_single hc (by simp)]
      exact .word (isWord_singleton hc) (by simp) h
  | cons d s =>
      cases hd : isBlank d with
      | true =>
          have ends : ∀ e, (d :: s).head? = some e → isBlank e = true := by simp [hd]
          rw [words_single hc ends]
          exact .word (isWord_singleton hc) ends h
      | false =>
          obtain ⟨w, rest, vs, hs, htext, hw, ends, hrest⟩ := h.first_word hd
          rw [words_longer hc hd hs, ← htext]
          exact .word (hw.cons hc) ends hrest

/-- Cutting a text at its blanks leaves out nothing but blanks. -/
theorem splits_words (s : List Char) : Splits s (words s) := by
  induction s with
  | nil => exact .nil
  | cons c s ih =>
      cases hc : isBlank c with
      | true =>
          rw [words_blank hc]
          exact .blank hc ih
      | false => exact ih.cons hc

/-- A text splits into the words that are found and into no others. -/
theorem splits_iff : Splits s ws ↔ ws = words s := by
  constructor
  · intro h
    induction h with
    | nil => rfl
    | blank hc _ ih => rw [words_blank hc, ih]
    | word hw ends _ ih => rw [words_append hw ends, ih]
  · rintro rfl
    exact splits_words s

end HotPatch.Text
