import HotPatch.Pattern.Text
import HotPatch.Proofs.Text.Hex
import Mathlib.Data.List.Forall2

/-!
# The grammar of patterns

Which texts are patterns is told by their words alone: each has to stand for a position, and the
first that does not is reported. A digit behind a plus sign passes for a byte; apart from it a word
is one or two question marks or the two digits of a byte.
-/

namespace HotPatch

/-! ## Single tokens -/

namespace Position

variable {t : List Char} {q q' : Position}

/-- The proper form of a token: question marks for anything, or the two digits of a byte. -/
inductive Spells : List Char → Position → Prop
  | single : Spells ['?'] .wildcard
  | double : Spells ['?', '?'] .wildcard
  | byte {c d : Char} {m n : Nat} (high : Text.IsHexDigit c m) (low : Text.IsHexDigit d n) :
      Spells [c, d] (.exact (UInt8.ofNat (16 * m + n)))

/-- What a token is read as: what it spells or, behind a plus sign, the value of its one digit. -/
inductive ReadAs : List Char → Position → Prop
  | proper {t : List Char} {q : Position} (h : Spells t q) : ReadAs t q
  | signed {d : Char} {n : Nat} (h : Text.IsHexDigit d n) :
      ReadAs ['+', d] (.exact (UInt8.ofNat n))

def Signed (t : List Char) : Prop := ∃ d n, Text.IsHexDigit d n ∧ t = ['+', d]

/-- Two digits are not taken for anything else. -/
theorem ofToken?_digits {c d : Char} {m n : Nat} (high : Text.IsHexDigit c m)
    (low : Text.IsHexDigit d n) : ofToken? [c, d] = some (.exact (UInt8.ofNat (16 * m + n))) := by
  -- both rule out the forms that are tried before, the second one from the context
  have hquestion : c ≠ '?' := high.ne rfl
  have hplus : c ≠ '+' := high.ne rfl
  have hc := Text.hexValue?_eq_some_iff.mpr high
  have hd := Text.hexValue?_eq_some_iff.mpr low
  simp [ofToken?, hquestion, hc, hd]

/-- A token is read exactly as the grammar says. -/
theorem ofToken?_eq_some_iff : ofToken? t = some q ↔ ReadAs t q := by
  constructor
  · intro h
    unfold ofToken? at h
    split at h
    · cases h
      exact .proper .single
    · cases h
      exact .proper .double
    · obtain ⟨n, hn, rfl⟩ := Option.map_eq_some_iff.mp h
      exact .signed (Text.hexValue?_eq_some_iff.mp hn)
    · split at h
      · rename_i hm hn
        cases h
        exact .proper (.byte (Text.hexValue?_eq_some_iff.mp hm) (Text.hexValue?_eq_some_iff.mp hn))
      · cases h
    · cases h
  · intro h
    cases h with
    | signed hd => simp [ofToken?, Text.hexValue?_eq_some_iff.mpr hd]
    | proper h =>
        cases h with
        | single => rfl
        | double => rfl
        | byte high low => exact ofToken?_digits high low

theorem ReadAs.unique (h : ReadAs t q) (h' : ReadAs t q') : q = q' :=
  Option.some.inj ((ofToken?_eq_some_iff.mpr h).symm.trans (ofToken?_eq_some_iff.mpr h'))

theorem ReadAs.spells (h : ReadAs t q) (hnot : ¬ Signed t) : Spells t q := by
  cases h with
  | proper h => exact h
  | signed hd => exact absurd ⟨_, _, hd, rfl⟩ hnot

theorem Signed.exists_readAs (h : Signed t) : ∃ q, ReadAs t q := by
  obtain ⟨d, n, hd, rfl⟩ := h
  exact ⟨_, .signed hd⟩

theorem Signed.not_spells (h : Signed t) (q : Position) : ¬ Spells t q := by
  obtain ⟨d, n, -, rfl⟩ := h
  intro h
  cases h with
  | byte high => exact high.ne rfl rfl

end Position

/-! ## Rows of tokens -/

namespace Pattern

open Position

variable {D : List Char → Position → Prop} {t t' w : List Char} {ws : List (List Char)}
  {ps : List Position} {i place place' : Nat} {q : Position} {p : Pattern}

/-- `t`, at the given place, is the first of the words `ws` that stands for nothing, `D` telling
what a word stands for. -/
structure FirstRefused (D : List Char → Position → Prop) (ws : List (List Char)) (t : List Char)
    (place : Nat) : Prop where
  found : ws[place]? = some t
  refused : ∀ q, ¬ D t q
  before : ∀ i u, i < place → ws[i]? = some u → ∃ q, D u q

theorem FirstRefused.unique (h : FirstRefused D ws t place) (h' : FirstRefused D ws t' place') :
    t = t' ∧ place = place' := by
  rcases Nat.lt_trichotomy place place' with hlt | rfl | hlt
  · obtain ⟨q, hq⟩ := h'.before place t hlt h.found
    exact absurd hq (h.refused q)
  · exact ⟨Option.some.inj (h.found.symm.trans h'.found), rfl⟩
  · obtain ⟨q, hq⟩ := h.before place' t' hlt h'.found
    exact absurd hq (h'.refused q)

theorem firstRefused_head (hw : ∀ q, ¬ D w q) : FirstRefused D (w :: ws) w 0 :=
  ⟨rfl, hw, fun i _ hi ↦ absurd hi (Nat.not_lt_zero i)⟩

theorem firstRefused_cons_iff (hw : D w q) :
    FirstRefused D (w :: ws) t place ↔ ∃ i, place = i + 1 ∧ FirstRefused D ws t i := by
  constructor
  · intro h
    cases place with
    | zero =>
        obtain rfl := Option.some.inj h.found
        exact absurd hw (h.refused q)
    | succ i =>
        exact ⟨i, rfl, h.found, h.refused, fun j u hj hu ↦
          h.before (j + 1) u (Nat.succ_lt_succ hj) hu⟩
  · rintro ⟨i, rfl, h⟩
    refine ⟨h.found, h.refused, fun j u hj hu ↦ ?_⟩
    cases j with
    | zero =>
        obtain rfl := Option.some.inj hu
        exact ⟨q, hw⟩
    | succ j => exact h.before j u (Nat.lt_of_succ_lt_succ hj) hu

theorem FirstRefused.not_forall₂ (h : FirstRefused D ws t place) : ¬ List.Forall₂ D ws ps := by
  intro hps
  induction hps generalizing place with
  | nil => simpa using h.found
  | cons hq _ ih =>
      obtain ⟨i, -, hrest⟩ := (firstRefused_cons_iff hq).mp h
      exact ih hrest

/-- Each word stands for a position, or there is a first one that does not. -/
theorem forall₂_or_firstRefused (D : List Char → Position → Prop) (ws : List (List Char)) :
    (∃ ps, List.Forall₂ D ws ps) ∨ ∃ t place, FirstRefused D ws t place := by
  induction ws with
  | nil => exact .inl ⟨[], .nil⟩
  | cons w ws ih =>
      by_cases hw : ∃ q, D w q
      · obtain ⟨q, hq⟩ := hw
        rcases ih with ⟨ps, hps⟩ | ⟨t, place, h⟩
        · exact .inl ⟨q :: ps, .cons hq hps⟩
        · exact .inr ⟨t, place + 1, (firstRefused_cons_iff hq).mpr ⟨place, rfl, h⟩⟩
      · exact .inr ⟨w, 0, firstRefused_head fun q hq ↦ hw ⟨q, hq⟩⟩

theorem forall_mem_iff_forall₂ : (∀ w ∈ ws, ∃ q, D w q) ↔ ∃ ps, List.Forall₂ D ws ps := by
  constructor
  · intro h
    refine (forall₂_or_firstRefused D ws).resolve_right ?_
    rintro ⟨t, place, hrefused⟩
    obtain ⟨q, hq⟩ := h t (List.mem_of_getElem? hrefused.found)
    exact hrefused.refused q hq
  · rintro ⟨ps, hps⟩
    induction hps with
    | nil => exact List.forall_mem_nil _
    | cons hq _ ih => exact List.forall_mem_cons.mpr ⟨⟨_, hq⟩, ih⟩

/-! ## Reading a row -/

theorem ofTokens_eq_ok (h : List.Forall₂ ReadAs ws ps) (place : Nat) :
    ofTokens place ws = .ok ps := by
  induction h generalizing place with
  | nil => rfl
  | cons hq _ ih => simp only [ofTokens, ofToken?_eq_some_iff.mpr hq, ih]

/-- The first word that is refused is reported with its place. -/
theorem ofTokens_eq_error (h : FirstRefused ReadAs ws t i) (place : Nat) :
    ofTokens place ws = .error (.invalidToken (String.ofList t) (place + i)) := by
  induction ws generalizing i place with
  | nil => cases h.found
  | cons w ws ih =>
      by_cases hw : ∃ q, ReadAs w q
      · obtain ⟨q, hq⟩ := hw
        obtain ⟨i, rfl, hrest⟩ := (firstRefused_cons_iff hq).mp h
        simp only [ofTokens, ofToken?_eq_some_iff.mpr hq, ih hrest, Nat.add_assoc, Nat.add_comm 1]
      · have hhead : FirstRefused ReadAs (w :: ws) w 0 := firstRefused_head fun q hq ↦ hw ⟨q, hq⟩
        obtain ⟨rfl, rfl⟩ := h.unique hhead
        have hnone : ofToken? t = none :=
          Option.eq_none_iff_forall_ne_some.mpr fun q hq ↦ hw ⟨q, ofToken?_eq_some_iff.mp hq⟩
        simp only [ofTokens, hnone, Nat.add_zero]

/-- `o` is the right answer for a text with the words `ws` when `D` tells what a word stands for. -/
structure Answers (D : List Char → Position → Prop) (ws : List (List Char))
    (o : Except PatternError Pattern) : Prop where
  succeeds_iff : (∃ p, o = .ok p) ↔ ws ≠ [] ∧ ∀ w ∈ ws, ∃ q, D w q
  ok_iff : ∀ p, o = .ok p ↔ ws ≠ [] ∧ List.Forall₂ D ws p.positions
  empty_iff : o = .error .empty ↔ ws = []
  invalid_iff : ∀ token place,
    o = .error (.invalidToken token place) ↔ FirstRefused D ws token.toList place

theorem answers_ok (hD : Relator.RightUnique D) (hps : List.Forall₂ D ws p.positions) :
    Answers D ws (.ok p) := by
  have hne : ws ≠ [] := by
    rintro rfl
    exact p.nonempty (List.forall₂_nil_left_iff.mp hps)
  refine ⟨iff_of_true ⟨p, rfl⟩ ⟨hne, forall_mem_iff_forall₂.mpr ⟨_, hps⟩⟩, fun p' ↦ ?_,
    iff_of_false nofun hne, fun token place ↦ iff_of_false nofun fun h ↦ h.not_forall₂ hps⟩
  constructor
  · rintro ⟨⟩
    exact ⟨hne, hps⟩
  · rintro ⟨-, hps'⟩
    obtain ⟨ps, hnonempty⟩ := p
    obtain ⟨ps', hnonempty'⟩ := p'
    obtain rfl : ps = ps' := hD.forall₂ hps hps'
    rfl

theorem answers_empty (D : List Char → Position → Prop) : Answers D [] (.error .empty) := by
  refine ⟨iff_of_false nofun fun h ↦ h.1 rfl, fun p ↦ iff_of_false nofun fun h ↦ h.1 rfl,
    iff_of_true rfl rfl, fun token place ↦ iff_of_false nofun fun h ↦ ?_⟩
  cases h.found

theorem answers_invalid (h : FirstRefused D ws t place) :
    Answers D ws (.error (.invalidToken (String.ofList t) place)) := by
  have hnot : ∀ ps, ¬ List.Forall₂ D ws ps := fun ps ↦ h.not_forall₂
  refine ⟨iff_of_false nofun fun hall ↦ ?_, fun p ↦ iff_of_false nofun fun hp ↦ hnot _ hp.2,
    iff_of_false nofun ?_, fun token place' ↦ ?_⟩
  · obtain ⟨ps, hps⟩ := forall_mem_iff_forall₂.mp hall.2
    exact hnot ps hps
  · rintro rfl
    cases h.found
  · constructor
    · rintro ⟨⟩
      rwa [String.toList_ofList]
    · intro h'
      obtain ⟨rfl, rfl⟩ := h.unique h'
      rw [String.ofList_toList]

/-! ## Reading a text -/

theorem parse_eq_ok {s : String} (h : List.Forall₂ ReadAs (Text.words s.toList) p.positions) :
    parse s = .ok p := by
  simp only [parse, ofTokens_eq_ok h]
  obtain ⟨ps, hne⟩ := p
  cases ps with
  | nil => exact absurd rfl hne
  | cons q ps => rfl

theorem parse_eq_empty {s : String} (h : Text.words s.toList = []) : parse s = .error .empty := by
  simp only [parse, h, ofTokens, ofPositions]

theorem parse_eq_invalid {s : String} (h : FirstRefused ReadAs (Text.words s.toList) t place) :
    parse s = .error (.invalidToken (String.ofList t) place) := by
  simp only [parse, ofTokens_eq_error h, Nat.zero_add]

/-- A text is answered for by each grammar that takes words for what they are read as only, unless
the first word that the grammar refuses is read nevertheless. -/
theorem answers_parse (hD : ∀ w q, D w q → ReadAs w q) {s : String}
    (h : ∀ t place, FirstRefused D (Text.words s.toList) t place → ∀ q, ¬ ReadAs t q) :
    Answers D (Text.words s.toList) (parse s) := by
  rcases forall₂_or_firstRefused D (Text.words s.toList) with ⟨ps, hps⟩ | ⟨t, place, hfirst⟩
  · cases ps with
    | nil =>
        have hnil := List.forall₂_nil_right_iff.mp hps
        rw [parse_eq_empty hnil, hnil]
        exact answers_empty D
    | cons q ps =>
        have hread : parse s = .ok ⟨q :: ps, by simp⟩ := parse_eq_ok (hps.imp hD)
        rw [hread]
        exact answers_ok (fun w _ _ hq hr ↦ (hD w _ hq).unique (hD w _ hr)) hps
  · have hread : FirstRefused ReadAs (Text.words s.toList) t place :=
      ⟨hfirst.found, h t place hfirst, fun i u hi hu ↦
        (hfirst.before i u hi hu).imp fun q hq ↦ hD u q hq⟩
    rw [parse_eq_invalid hread]
    exact answers_invalid hfirst

/-- A text splits into words in one way only, and reading it answers for them, a digit behind a plus
sign passing for a byte. So the answer is that of the proper grammar exactly as long as the first
word that is not in proper form, if there is any, is no digit behind a plus sign. -/
theorem parse_grammar (s : String) :
    ∃ ws, (∀ vs, Text.Splits s.toList vs ↔ vs = ws) ∧ Answers ReadAs ws (parse s) ∧
      (Answers Spells ws (parse s) ↔
        ∀ t place, FirstRefused Spells ws t place → ¬ Signed t) := by
  have hread : Answers ReadAs (Text.words s.toList) (parse s) :=
    answers_parse (fun _ _ h ↦ h) fun _ _ h ↦ h.refused
  refine ⟨Text.words s.toList, fun vs ↦ Text.splits_iff, hread, ?_⟩
  constructor
  · intro h t place hfirst hsigned
    have hanswer : parse s = .error (.invalidToken (String.ofList t) place) := by
      rwa [h.invalid_iff, String.toList_ofList]
    have hrefused := ((hread.invalid_iff _ _).mp hanswer).refused
    obtain ⟨q, hq⟩ := hsigned.exists_readAs
    rw [String.toList_ofList] at hrefused
    exact hrefused q hq
  · intro h
    refine answers_parse (fun _ _ hq ↦ .proper hq) fun t place hfirst q hq ↦ ?_
    exact hfirst.refused q (hq.spells (h t place hfirst))

/-- A digit behind a plus sign is neither two digits nor question marks, and yet it is read. -/
theorem parse_plus_five :
    Text.Splits "+5".toList [['+', '5']] ∧ parse "+5" = .ok ⟨[.exact 5], by simp⟩ ∧
      ¬ Answers Spells [['+', '5']] (parse "+5") := by
  have hwords : [['+', '5']] = Text.words "+5".toList := by decide
  have hsigned : Signed ['+', '5'] := ⟨'5', 5, by decide, rfl⟩
  have hparse : parse "+5" = .ok ⟨[.exact 5], by simp⟩ := by decide
  refine ⟨Text.splits_iff.mpr hwords, hparse, fun h ↦ ?_⟩
  obtain ⟨q, hq⟩ := (h.succeeds_iff.mp ⟨_, hparse⟩).2 _ List.mem_cons_self
  exact hsigned.not_spells q hq

end Pattern

end HotPatch
