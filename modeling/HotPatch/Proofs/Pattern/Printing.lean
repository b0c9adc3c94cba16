import HotPatch.Proofs.Pattern.Grammar

/-!
# Printing a pattern and reading it back

Each position is printed as a word that spells it, with one blank between any two, so that reading
the text gives the pattern again.
-/

namespace HotPatch

namespace Position

theorem spells_token (q : Position) : Spells q.token q := by
  cases q with
  | wildcard => exact .double
  | exact b =>
      have hb := b.toNat_lt
      have hhigh := Text.isHexDigit_hexDigit true (n := b.toNat / 16) (by omega)
      have hlow := Text.isHexDigit_hexDigit true (n := b.toNat % 16) (Nat.mod_lt _ (by decide))
      have hbyte : UInt8.ofNat (16 * (b.toNat / 16) + b.toNat % 16) = b := by
        rw [Nat.div_add_mod, UInt8.ofNat_toNat]
      have hspells := Spells.byte hhigh hlow
      rwa [hbyte] at hspells

theorem isWord_token (q : Position) : Text.IsWord q.token := by
  cases q with
  | wildcard =>
      have hquestion : Text.isBlank '?' = false := by decide
      exact ⟨by simp [token], by simp [token, hquestion]⟩
  | exact b => exact Text.isWord_hexByte true b

end Position

namespace Pattern

variable {p : Pattern} {ts : List (List Char)}

theorem isBlank_space : Text.isBlank ' ' = true := by decide

/-- Tokens that are joined by single blanks come apart again. -/
theorem splits_joinTokens (h : ∀ t ∈ ts, Text.IsWord t) : Text.Splits (joinTokens ts) ts := by
  induction ts with
  | nil => exact .nil
  | cons t ts ih =>
      obtain ⟨ht, hts⟩ := List.forall_mem_cons.mp h
      cases ts with
      | nil =>
          have hsplit := Text.Splits.word ht (by simp) .nil
          rwa [List.append_nil] at hsplit
      | cons u ts => exact .word ht (by simp [isBlank_space]) (.blank isBlank_space (ih hts))

theorem words_print (p : Pattern) :
    Text.words p.print.toList = p.positions.map Position.token := by
  rw [print, String.toList_ofList]
  refine (Text.splits_iff.mp (splits_joinTokens ?_)).symm
  simpa using fun q _ ↦ q.isWord_token

/-- A pattern is what its text is read as. -/
theorem parse_print (p : Pattern) : parse p.print = .ok p := by
  apply parse_eq_ok
  rw [words_print, List.forall₂_map_left_iff, List.forall₂_same]
  exact fun q _ ↦ .proper q.spells_token

/-- Reading what was printed gives the pattern that was printed. So a text that can be read, in
whatever form, is brought into the printed form, which is read alike and stays as it is. -/
theorem print_roundTrip :
    (∀ p : Pattern, parse p.print = .ok p) ∧
      ∀ s p, parse s = .ok p →
        parse p.print = .ok p ∧ ∀ q, parse p.print = .ok q → q.print = p.print := by
  refine ⟨parse_print, fun s p _ ↦ ⟨parse_print p, fun q hq ↦ ?_⟩⟩
  rw [Except.ok.inj (hq.symm.trans (parse_print p))]

/-- Small letters, tabs, a short wildcard and a plus sign go, the pattern stays. -/
theorem print_roundTrip_normalizing :
    let p : Pattern := ⟨[.exact 0x8b, .wildcard, .exact 5], by simp⟩
    parse " 8b\t?  +5" = .ok p ∧ p.print = "8B ?? 05" ∧ parse "8B ?? 05" = .ok p ∧
      ∀ q, parse "8B ?? 05" = .ok q → q.print = "8B ?? 05" := by
  intro p
  have hparse : parse " 8b\t?  +5" = .ok p := by decide
  have hprint : p.print = "8B ?? 05" := by decide
  have hstable := print_roundTrip.2 _ p hparse
  rw [hprint] at hstable
  exact ⟨hparse, hprint, hstable⟩

end Pattern

end HotPatch
