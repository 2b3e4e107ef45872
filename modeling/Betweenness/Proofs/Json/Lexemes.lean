import Betweenness.Proofs.Json.Grammar

/-!
# Numbers and texts in the form of the grammar

The scanner collects the characters of a number before it checks them, and puts a text in quotes
together piece by piece from the front, with a half of a surrogate pair kept aside. Both come to
what the grammar says of numbers and of texts as a whole.

## Main results

* `isNumber_iff`: the check of a number is the grammar of numbers.
* `Content.close_foldl_empty`: the text that is put together is the one that the pieces stand for.
-/

namespace Betweenness.Json

/-! ### Numbers -/

section Numbers

variable {cs ds rest : List Char} {c : Char}

theorem IsDigits.exists_cons (h : IsDigits ds) : ∃ d rest, ds = d :: rest ∧ d.isDigit = true := by
  obtain ⟨d, rest, rfl⟩ := List.exists_cons_of_ne_nil h.1
  exact ⟨d, rest, rfl, h.2 d List.mem_cons_self⟩

theorem all_digits_takeWhile : ∀ c ∈ cs.takeWhile Char.isDigit, c.isDigit = true := by
  intro c hc
  exact List.all_eq_true.mp List.all_takeWhile c hc

theorem takeWhile_ne_nil (h : cs.head?.any Char.isDigit = true) :
    cs.takeWhile Char.isDigit ≠ [] := by
  cases cs with
  | nil => exact absurd h (by decide)
  | cons c cs =>
      rw [List.takeWhile_cons_of_pos (by simpa using h)]
      exact List.cons_ne_nil _ _

/-- Digits in front of something that begins with none are cut off as a whole. -/
theorem dropWhile_digits (h : ∀ d ∈ ds, d.isDigit = true)
    (hrest : ∀ c ∈ rest.head?, c.isDigit = false) :
    (ds ++ rest).dropWhile Char.isDigit = rest := by
  rw [List.dropWhile_append_of_pos h]
  cases rest with
  | nil => rfl
  | cons c rest => exact List.dropWhile_cons_of_neg (by simpa using hrest c rfl)

/-- An exponent begins with its mark, which is no digit and no point. -/
theorem IsExponentPart.head (h : IsExponentPart cs) {c : Char} (hc : cs.head? = some c) :
    c = 'e' ∨ c = 'E' := by
  cases h with
  | absent => simp at hc
  | present hmark _ _ =>
      obtain rfl := Option.some.inj hc
      exact hmark

theorem IsExponentPart.head_not_digit (h : IsExponentPart cs) :
    ∀ c ∈ cs.head?, c.isDigit = false := by
  intro c hc
  rcases h.head hc with rfl | rfl <;> rfl

theorem isExponent_iff : isExponent cs = true ↔ IsExponentPart cs := by
  constructor
  · intro h
    cases cs with
    | nil => exact .absent
    | cons mark rest =>
        unfold isExponent at h
        dsimp only at h
        split at h
        all_goals
          simp only [Bool.and_eq_true, Bool.or_eq_true, decide_eq_true_eq, List.all_eq_true,
            Bool.not_eq_true', List.isEmpty_eq_false_iff] at h
          obtain ⟨⟨hmark, hne⟩, hdigits⟩ := h
        · exact (.present hmark (.inr (.inl rfl)) ⟨hne, hdigits⟩ :
            IsExponentPart (mark :: (['+'] ++ _)))
        · exact (.present hmark (.inr (.inr rfl)) ⟨hne, hdigits⟩ :
            IsExponentPart (mark :: (['-'] ++ _)))
        · exact (.present hmark (.inl rfl) ⟨hne, hdigits⟩ : IsExponentPart (mark :: ([] ++ _)))
  · intro h
    cases h with
    | absent => rfl
    | @present mark sign ds hmark hsign h =>
        obtain ⟨d, rest, rfl, hd⟩ := h.exists_cons
        have hplus : d ≠ '+' := by rintro rfl; exact absurd hd (by decide)
        have hminus : d ≠ '-' := by rintro rfl; exact absurd hd (by decide)
        have hdigits : ((mark = 'e' || mark = 'E') && !(d :: rest).isEmpty &&
            (d :: rest).all Char.isDigit) = true := by
          have hall : (d :: rest).all Char.isDigit = true := List.all_eq_true.mpr h.2
          rw [hall]
          simpa using hmark
        rcases hsign with rfl | rfl | rfl
        · unfold isExponent
          dsimp only [List.nil_append]
          split
          · rename_i heq
            exact absurd (List.cons_eq_cons.mp heq).1 hplus
          · rename_i heq
            exact absurd (List.cons_eq_cons.mp heq).1 hminus
          · exact hdigits
        · exact hdigits
        · exact hdigits

theorem isFraction_iff : isFraction cs = true ↔ ∃ fraction exponent,
    cs = fraction ++ exponent ∧ IsFractionPart fraction ∧ IsExponentPart exponent := by
  constructor
  · intro h
    unfold isFraction at h
    split at h
    · rename_i rest
      rw [Bool.and_eq_true] at h
      refine ⟨'.' :: rest.takeWhile Char.isDigit, rest.dropWhile Char.isDigit, ?_, ?_, ?_⟩
      · rw [List.cons_append, List.takeWhile_append_dropWhile]
      · exact .present ⟨takeWhile_ne_nil h.1, all_digits_takeWhile⟩
      · exact isExponent_iff.mp h.2
    · exact ⟨[], cs, rfl, .absent, isExponent_iff.mp h⟩
  · rintro ⟨fraction, exponent, rfl, hfraction, hexponent⟩
    cases hfraction with
    | absent =>
        have hpoint : ∀ rest, exponent ≠ '.' :: rest := by
          rintro rest rfl
          rcases hexponent.head rfl with h | h <;> exact absurd h (by decide)
        rw [List.nil_append]
        unfold isFraction
        split
        · exact absurd rfl (hpoint _)
        · exact isExponent_iff.mpr hexponent
    | present h =>
        obtain ⟨d, ds, rfl, hd⟩ := h.exists_cons
        have hdrop := dropWhile_digits h.2 hexponent.head_not_digit
        exact Bool.and_eq_true_iff.mpr
          ⟨hd, (congrArg isExponent hdrop).trans (isExponent_iff.mpr hexponent)⟩

/-- What follows the digits in front of the point does not begin with a digit. -/
theorem head_not_digit {fraction exponent : List Char} (hfraction : IsFractionPart fraction)
    (hexponent : IsExponentPart exponent) :
    ∀ c ∈ (fraction ++ exponent).head?, c.isDigit = false := by
  cases hfraction with
  | absent => exact hexponent.head_not_digit
  | present h =>
      rintro c ⟨⟩
      rfl

theorem isUnsigned_iff : isUnsigned cs = true ↔ IsUnsignedNumeral cs := by
  constructor
  · intro h
    unfold isUnsigned at h
    split at h
    · obtain ⟨fraction, exponent, rfl, hfraction, hexponent⟩ := isFraction_iff.mp h
      exact .mk .zero hfraction hexponent
    · rename_i c rest hzero
      rw [Bool.and_eq_true] at h
      obtain ⟨fraction, exponent, hrest, hfraction, hexponent⟩ := isFraction_iff.mp h.2
      have hsplit : c :: rest = c :: rest.takeWhile Char.isDigit ++ (fraction ++ exponent) := by
        rw [← hrest, List.cons_append, List.takeWhile_append_dropWhile]
      rw [hsplit]
      refine .mk (.digits ⟨List.cons_ne_nil _ _, ?_⟩ ?_) hfraction hexponent
      · exact List.forall_mem_cons.mpr ⟨h.1, all_digits_takeWhile⟩
      · rintro ⟨⟩
        exact hzero rfl
    · exact absurd h (by decide)
  · rintro @⟨whole, fraction, exponent, hwhole, hfraction, hexponent⟩
    cases hwhole with
    | zero => exact isFraction_iff.mpr ⟨fraction, exponent, rfl, hfraction, hexponent⟩
    | digits h hzero =>
        obtain ⟨d, ds, rfl, hd⟩ := h.exists_cons
        have hdrop := dropWhile_digits (List.forall_mem_cons.mp h.2).2
          (head_not_digit hfraction hexponent)
        rw [List.cons_append]
        unfold isUnsigned
        split
        · rename_i heq
          cases heq
          exact absurd rfl hzero
        · rename_i heq
          cases heq
          rw [Bool.and_eq_true, hdrop]
          exact ⟨hd, isFraction_iff.mpr ⟨fraction, exponent, rfl, hfraction, hexponent⟩⟩
        · rename_i heq
          cases heq

/-- The check that the scanner makes is the grammar of numbers. -/
theorem isNumber_iff : isNumber cs = true ↔ IsNumeral cs := by
  constructor
  · intro h
    unfold isNumber at h
    split at h
    · exact .negative (isUnsigned_iff.mp h)
    · exact .positive (isUnsigned_iff.mp h)
  · intro h
    cases h with
    | positive h =>
        unfold isNumber
        split
        · exact absurd (isUnsigned_iff.mpr h) Bool.false_ne_true
        · exact isUnsigned_iff.mpr h
    | negative h => exact isUnsigned_iff.mpr h

theorem IsDigits.isNumberChar (h : IsDigits cs) : ∀ c ∈ cs, isNumberChar c = true := fun c hc =>
  Bool.or_eq_true_iff.mpr (.inl (h.2 c hc))

/-- All characters of a number occur in numbers. -/
theorem IsUnsignedNumeral.isNumberChar (h : IsUnsignedNumeral cs) :
    ∀ c ∈ cs, Json.isNumberChar c = true := by
  obtain ⟨hwhole, hfraction, hexponent⟩ := h
  refine List.forall_mem_append.mpr ⟨?_, List.forall_mem_append.mpr ⟨?_, ?_⟩⟩
  · cases hwhole with
    | zero => exact List.all_eq_true.mp rfl
    | digits h _ => exact h.isNumberChar
  · cases hfraction with
    | absent => simp
    | present h => exact List.forall_mem_cons.mpr ⟨rfl, h.isNumberChar⟩
  · cases hexponent with
    | absent => simp
    | present hmark hsign h =>
        refine List.forall_mem_cons.mpr ⟨?_, List.forall_mem_append.mpr ⟨?_, h.isNumberChar⟩⟩
        · rcases hmark with rfl | rfl <;> rfl
        · rcases hsign with rfl | rfl | rfl <;> exact List.all_eq_true.mp rfl

theorem IsNumeral.isNumberChar (h : IsNumeral cs) : ∀ c ∈ cs, Json.isNumberChar c = true := by
  cases h with
  | positive h => exact h.isNumberChar
  | negative h => exact List.forall_mem_cons.mpr ⟨rfl, h.isNumberChar⟩

/-- A number begins with its sign or with a digit. -/
theorem IsNumeral.exists_cons (h : IsNumeral cs) :
    ∃ c rest, cs = c :: rest ∧ (c = '-' ∨ c.isDigit = true) := by
  cases h with
  | negative h => exact ⟨_, _, rfl, .inl rfl⟩
  | positive h =>
      obtain ⟨hwhole, -, -⟩ := h
      cases hwhole with
      | zero => exact ⟨_, _, rfl, .inr rfl⟩
      | digits h _ =>
          obtain ⟨d, rest, rfl, hd⟩ := h.exists_cons
          exact ⟨d, _, rfl, .inr hd⟩

end Numbers

/-! ### Texts in quotes -/

variable {u v : ℕ} {pieces : List Piece}

theorem decode_of_low (hu : IsLowHalf u) : decode (.unit u :: pieces) = none := by
  rw [decode.eq_def]
  exact if_pos hu

theorem decode_of_plain (hlow : ¬ IsLowHalf u) (hhigh : ¬ IsHighHalf u) :
    decode (.unit u :: pieces) = (decode pieces).map (Char.ofNat u :: ·) := by
  rw [decode.eq_def]
  exact (if_neg hlow).trans (if_neg hhigh)

theorem IsHighHalf.not_low (hu : IsHighHalf u) : ¬ IsLowHalf u := fun hlow =>
  Nat.not_lt_of_le hlow.1 hu.2

theorem decode_of_pair (hu : IsHighHalf u) (hv : IsLowHalf v) :
    decode (.unit u :: .unit v :: pieces) =
      (decode pieces).map (Char.ofNat (Content.pairValue u v) :: ·) := by
  rw [decode.eq_def]
  exact (if_neg hu.not_low).trans ((if_pos hu).trans (if_pos hv))

/-- The first half of a surrogate pair has to be followed by the second. -/
theorem decode_of_lone (hu : IsHighHalf u)
    (h : ∀ v rest, pieces = .unit v :: rest → ¬ IsLowHalf v) :
    decode (.unit u :: pieces) = none := by
  rw [decode.eq_def]
  dsimp only
  rw [if_neg hu.not_low, if_pos hu]
  split
  · exact if_neg (h _ _ rfl)
  · rfl

namespace Content

/-- Read a piece of a text. -/
def pushPiece (t : Content) : Piece → Content
  | .char c => t.push c
  | .unit u => t.pushUnit u

theorem pushUnit_of_plain {t : Content} (hlow : ¬ IsLowHalf u) (hhigh : ¬ IsHighHalf u) :
    t.pushUnit u = t.push (Char.ofNat u) := (if_neg hlow).trans (if_neg hhigh)

theorem pushUnit_of_high {t : Content} (hu : IsHighHalf u) :
    t.pushUnit u = { t with half := some u, broken := t.broken || t.half.isSome } :=
  (if_neg hu.not_low).trans (if_pos hu)

theorem pushUnit_of_low {t : Content} (hu : IsLowHalf u) : t.pushUnit u =
    match t.half with
    | some high => { t with chars := Char.ofNat (pairValue high u) :: t.chars, half := none }
    | none => { t with broken := true } := if_pos hu

/-- A half of a surrogate pair that stands alone is not mended. -/
theorem broken_pushPiece {t : Content} (h : t.broken = true) (p : Piece) :
    (t.pushPiece p).broken = true := by
  cases p with
  | char c => simp [pushPiece, push, h]
  | unit u =>
      rw [pushPiece]
      by_cases hlow : IsLowHalf u
      · rw [pushUnit_of_low hlow]
        split
        · exact h
        · rfl
      · by_cases hhigh : IsHighHalf u
        · simp [pushUnit_of_high hhigh, h]
        · simp [pushUnit_of_plain hlow hhigh, push, h]

theorem close_foldl_of_broken {t : Content} (h : t.broken = true) (pieces : List Piece) :
    (pieces.foldl pushPiece t).close = none := by
  induction pieces generalizing t with
  | nil => simp [close, h]
  | cons p pieces ih => exact ih (broken_pushPiece h p)

/-- A first half stands alone if anything but a second half follows. -/
theorem broken_pushPiece_of_lone {t : Content} (hu : t.half.isSome = true) {p : Piece}
    (h : ∀ v, p = .unit v → ¬ IsLowHalf v) : (t.pushPiece p).broken = true := by
  cases p with
  | char c => simp [pushPiece, push, hu]
  | unit v =>
      rw [pushPiece]
      by_cases hhigh : IsHighHalf v
      · simp [pushUnit_of_high hhigh, hu]
      · simp [pushUnit_of_plain (h v rfl) hhigh, push, hu]

/-- The text that is put together piece by piece is the text that the pieces stand for. The half of
a surrogate pair that has been read last is one more piece in front. -/
theorem close_foldl {t : Content} (hbroken : t.broken = false)
    (hhalf : ∀ u, t.half = some u → IsHighHalf u) :
    (pieces.foldl pushPiece t).close = (decode (t.half.toList.map .unit ++ pieces)).map
      fun cs => String.ofList (t.chars.reverse ++ cs) := by
  induction pieces generalizing t with
  | nil =>
      cases hu : t.half with
      | none => simp [close, decode, hbroken, hu]
      | some u =>
          have hlone : decode [.unit u] = none := decode_of_lone (hhalf u hu) (by simp)
          simp [close, hu, hlone]
  | cons p pieces ih =>
      rw [List.foldl_cons]
      cases hu : t.half with
      | none =>
          cases p with
          | char c =>
              rw [pushPiece, ih (by simp [push, hbroken, hu]) (by simp [push])]
              simp [push, decode, Function.comp_def]
          | unit v =>
              rw [pushPiece]
              by_cases hlow : IsLowHalf v
              · rw [pushUnit_of_low hlow, hu, close_foldl_of_broken rfl]
                simp [decode_of_low hlow]
              · by_cases hhigh : IsHighHalf v
                · rw [pushUnit_of_high hhigh, ih (by simp [hbroken, hu]) (by simpa using hhigh)]
                  simp
                · rw [pushUnit_of_plain hlow hhigh,
                    ih (by simp [push, hbroken, hu]) (by simp [push])]
                  simp [push, decode_of_plain hlow hhigh, Function.comp_def]
      | some u =>
          by_cases hpair : ∃ v, p = .unit v ∧ IsLowHalf v
          · obtain ⟨v, rfl, hlow⟩ := hpair
            rw [pushPiece, pushUnit_of_low hlow, hu]
            dsimp only
            rw [ih (by exact hbroken) (by simp)]
            simp [decode_of_pair (hhalf u hu) hlow, Function.comp_def]
          · have hnot : ∀ v, p = .unit v → ¬ IsLowHalf v := fun v hp hv => hpair ⟨v, hp, hv⟩
            have hlone : decode (.unit u :: p :: pieces) = none :=
              decode_of_lone (hhalf u hu) fun v rest heq => hnot v (List.cons_eq_cons.mp heq).1
            rw [close_foldl_of_broken (broken_pushPiece_of_lone (by simp [hu]) hnot)]
            simp [hlone]

/-- The text that is put together from the beginning. -/
theorem close_foldl_empty (pieces : List Piece) :
    (pieces.foldl pushPiece {}).close = (decode pieces).map String.ofList :=
  (close_foldl rfl (by simp)).trans rfl

end Content

end Betweenness.Json
