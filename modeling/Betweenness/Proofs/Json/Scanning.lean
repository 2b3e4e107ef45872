import Betweenness.Proofs.Json.Lexemes
import Mathlib.Data.List.Chain

/-!
# Cutting a text into tokens

`Token.scan` finds the tokens by which a text is spelled, and no others. Words and numbers end
where a character comes that cannot belong to them, so two of them that follow one another without
a blank run together. A list of tokens in which none comes directly after another (`Separated`) is
found in every one of its spellings.

In the other direction the invariant is `Pending`: the characters that have been read of a token
are the beginning of one of its spellings. Every step continues what is pending, and whatever is
spelled behind it makes up the spelling of the whole.

## Main results

* `ScanState.run_lexeme`, `ScanState.run_of_spelling`: the step and the run lemma from a spelling
  to its tokens.
* `ScanState.Pending.step`, `ScanState.spelling_of_run`: the step and the run lemma from the tokens
  to a spelling.
* `scan_of_spelling`, `spelling_of_scan`: both for whole texts.
-/

namespace Betweenness.Json

variable {cs : List Char} {c : Char}

/-! ### The machine -/

namespace ScanState

/-- The tokens that come of reading characters to their end. -/
def run : ScanState → List Char → Option (List Token)
  | s, [] => s.finish
  | s, c :: cs => do
    let (tokens, s) ← s.step c
    (tokens ++ ·) <$> s.run cs

/-- Tokens that have been read before are in front. -/
theorem foldlM_advance {cs : List Char} (acc : Array Token) (s : ScanState) :
    (do let (tokens, s) ← cs.foldlM advance (acc, s); return tokens.toList ++ (← s.finish)) =
      (acc.toList ++ ·) <$> s.run cs := by
  induction cs generalizing acc s with
  | nil => cases h : s.finish <;> simp [run, h]
  | cons c cs ih =>
      rw [List.foldlM_cons, run]
      cases h : s.step c with
      | none => simp [advance, h]
      | some p =>
          obtain ⟨tokens, s'⟩ := p
          have hadvance : advance (acc, s) c = some (acc ++ tokens, s') := by
            rw [advance, h]
            rfl
          rw [hadvance]
          refine (ih (acc ++ tokens) s').trans ?_
          cases hrun : s'.run cs <;> simp [hrun]

end ScanState

theorem scan_eq_run {text : String} : Token.scan text = ScanState.between.run text.toList := by
  rw [Token.scan]
  refine (ScanState.foldlM_advance _ _).trans ?_
  simp

/-! ### What is spelled is read -/

/-- Whether a token ends only where a character comes that cannot belong to it. -/
def Token.isOpenEnded : Token → Bool
  | .null | .bool _ | .number _ => true
  | _ => false

/-- No word or number comes directly after another one. -/
def Separated (tokens : List Token) : Prop :=
  tokens.IsChain fun t t' => t.isOpenEnded = true → t'.isOpenEnded = false

/-- A character that ends words and numbers. -/
def IsDelimiter (c : Char) : Prop := c.isLower = false ∧ isNumberChar c = false

theorem isDelimiter_of_isBlank (hc : isBlank c = true) : IsDelimiter c := by
  simp only [isBlank, Bool.or_eq_true, decide_eq_true_eq] at hc
  rcases hc with ((rfl | rfl) | rfl) | rfl <;> exact ⟨rfl, rfl⟩

theorem Lexeme.isDelimiter_head {t : Token} {lexeme : List Char} (h : Lexeme t lexeme)
    (ht : t.isOpenEnded = false) : ∃ c cs, lexeme = c :: cs ∧ IsDelimiter c := by
  cases h
  case null | boolTrue | boolFalse | number => cases ht
  all_goals exact ⟨_, _, rfl, rfl, rfl⟩

/-- What follows a word or a number begins with a delimiter, unless it is another one. -/
theorem Spelling.isDelimiter_head {tokens : List Token} (h : Spelling tokens cs)
    (htokens : ∀ t ∈ tokens.head?, t.isOpenEnded = false) : ∀ c ∈ cs.head?, IsDelimiter c := by
  intro c hc
  cases h with
  | nil => cases hc
  | blank hblank _ =>
      obtain rfl := Option.some.inj hc
      exact isDelimiter_of_isBlank hblank
  | token ht _ =>
      obtain ⟨d, ds, rfl, hd⟩ := ht.isDelimiter_head (htokens _ rfl)
      obtain rfl := Option.some.inj hc
      exact hd

namespace ScanState

/-- A step that completes no token. -/
theorem run_cons {s s' : ScanState} (h : s.step c = some ([], s')) :
    s.run (c :: cs) = s'.run cs := by
  rw [run, h]
  exact congrFun Option.map_id_fun' _

/-- A step that completes a token. -/
theorem run_cons_token {s s' : ScanState} {t : Token} (h : s.step c = some ([t], s')) :
    s.run (c :: cs) = (s'.run cs).map (t :: ·) := by
  rw [run, h]
  rfl

/-- A token that ends where a character cannot belong to it leaves this character to be read as one
between tokens. -/
theorem run_of_ends {s : ScanState} {token? : Option Token}
    (hfinish : s.finish = token?.map fun token => [token])
    (hstep : ∀ c ∈ cs.head?, s.step c =
      token?.bind fun token => (start c).map fun (tokens, s) => (token :: tokens, s)) :
    s.run cs = token?.bind fun token => (between.run cs).map (token :: ·) := by
  cases cs with
  | nil =>
      rw [run, run, hfinish]
      cases token? <;> rfl
  | cons c cs =>
      rw [run, hstep c rfl, run]
      cases token? with
      | none => rfl
      | some token => cases hs : start c <;> simp [step, hs, Function.comp_def]

/-- A word ends where no letter comes. -/
theorem run_word {letters : List Char} (h : ∀ c ∈ cs.head?, c.isLower = false) :
    (word letters).run cs =
      (Token.ofWord? letters.reverse).bind fun token => (between.run cs).map (token :: ·) := by
  refine run_of_ends ?_ fun c hc => ?_
  · cases hw : Token.ofWord? letters.reverse <;> simp [finish, hw]
  · simp only [step, h c hc, Bool.false_eq_true, if_false, Option.map_eq_bind]
    rfl

/-- A number ends where no character comes that occurs in numbers. -/
theorem run_number {chars : List Char} (h : ∀ c ∈ cs.head?, isNumberChar c = false) :
    (number chars).run cs =
      (Token.ofNumber? chars.reverse).bind fun token => (between.run cs).map (token :: ·) := by
  refine run_of_ends ?_ fun c hc => ?_
  · cases hw : Token.ofNumber? chars.reverse <;> simp [finish, hw]
  · simp only [step, h c hc, Bool.false_eq_true, if_false, Option.map_eq_bind]
    rfl

/-- The characters of a word or of a number are collected. -/
theorem run_append {collect : List Char → ScanState} {p : Char → Bool}
    (hstep : ∀ chars c, p c = true → (collect chars).step c = some ([], collect (c :: chars)))
    {chars more : List Char} (h : ∀ c ∈ more, p c = true) :
    (collect chars).run (more ++ cs) = (collect (more.reverse ++ chars)).run cs := by
  induction more generalizing chars with
  | nil => rfl
  | cons c more ih =>
      obtain ⟨hc, hrest⟩ := List.forall_mem_cons.mp h
      rw [List.cons_append, run_cons (hstep chars c hc), ih hrest, List.reverse_cons,
        List.append_assoc]
      rfl

/-- A blank between tokens is passed over. -/
theorem step_of_isBlank (hc : isBlank c = true) : between.step c = some ([], between) := by
  simp only [isBlank, Bool.or_eq_true, decide_eq_true_eq] at hc
  rcases hc with ((rfl | rfl) | rfl) | rfl <;> rfl

/-- A character between tokens that numbers begin with. -/
theorem step_of_number (hc : c = '-' ∨ c.isDigit = true) :
    between.step c = some ([], number [c]) := by
  rcases hc with rfl | hc
  · rfl
  · have hne : ∀ d, d.isDigit = false → c ≠ d := by
      rintro d hd rfl
      simp [hc] at hd
    have hpunctuation : punctuation? c = none := by
      unfold punctuation?
      split <;> first | rfl | exact absurd rfl (hne _ rfl)
    simp [step, start, hpunctuation, isBlank, hc, hne]

/-- Digits written one after another make a value. -/
theorem run_unit {t : Content} {digits : List Char} {missing value u : ℕ}
    (hlength : digits.length = missing) (hpos : 0 < missing)
    (hu : hexNumber? value digits = some u) :
    (unit t missing value).run (digits ++ cs) = (text (t.pushUnit u)).run cs := by
  induction digits generalizing missing value with
  | nil =>
      rw [List.length_nil] at hlength
      omega
  | cons d digits ih =>
      obtain ⟨x, hx, hu⟩ := Option.bind_eq_some_iff.mp hu
      rw [List.cons_append]
      rw [List.length_cons] at hlength
      by_cases hlast : missing ≤ 1
      · obtain rfl : digits = [] := List.length_eq_zero_iff.mp (by omega)
        obtain rfl := Option.some.inj hu
        exact run_cons (by simp [step, hx, hlast])
      · have hstep : (unit t missing value).step d =
            some ([], unit t (missing - 1) (value * 16 + x)) := by simp [step, hx, hlast]
        rw [run_cons hstep]
        exact ih (by omega) (by omega) hu

/-- The pieces of a text are read up to the quote behind it. -/
theorem run_text {pieces : List Piece} {quoted : List Char} (h : Quoted pieces quoted)
    {t : Content} : (text t).run (quoted ++ '"' :: cs) =
      (between.run cs).map (.text (pieces.foldl Content.pushPiece t).close :: ·) := by
  have hbackslash : (text t).step '\\' = some ([], escape t) := rfl
  induction h generalizing t with
  | nil => exact run_cons_token rfl
  | @plain c pieces quoted hquote hescape hcontrol h ih =>
      have hstep : (text t).step c = some ([], text (t.push c)) := by
        simp [step, hquote, hescape, Nat.not_lt.mpr hcontrol]
      rw [List.cons_append, run_cons hstep]
      exact ih rfl
  | @letter e c pieces quoted he h ih =>
      have hu : e ≠ 'u' := by
        rintro rfl
        cases he
      have hstep : (escape t).step e = some ([], text (t.push c)) := by simp [step, hu, he]
      rw [List.cons_append, List.cons_append, run_cons hbackslash, run_cons hstep]
      exact ih rfl
  | @unit digits u pieces quoted hlength hu h ih =>
      rw [List.cons_append, List.cons_append, run_cons hbackslash, run_cons rfl, List.append_assoc,
        run_unit hlength (by decide) hu]
      exact ih rfl

/-- A word is read if no letter follows. -/
theorem run_keyword {t : Token} {first : Char} {more : List Char}
    (hfirst : between.step first = some ([], word [first])) (hmore : ∀ c ∈ more, c.isLower = true)
    (ht : Token.ofWord? (first :: more) = some t) (hcs : ∀ c ∈ cs.head?, c.isLower = false) :
    between.run (first :: more ++ cs) = (between.run cs).map (t :: ·) := by
  have hstep : ∀ letters c, Char.isLower c = true →
      (word letters).step c = some ([], word (c :: letters)) := fun letters c hc => by
    simp [step, hc]
  rw [List.cons_append, run_cons hfirst, run_append hstep hmore, run_word hcs]
  simp [ht]

/-- A number is read if no character follows that occurs in numbers. -/
theorem run_numeral {numeral : List Char} (h : IsNumeral numeral)
    (hcs : ∀ c ∈ cs.head?, isNumberChar c = false) : between.run (numeral ++ cs) =
      (between.run cs).map (Token.number (String.ofList numeral) :: ·) := by
  obtain ⟨c, more, rfl, hfirst⟩ := h.exists_cons
  have hstep : ∀ chars c, isNumberChar c = true →
      (number chars).step c = some ([], number (c :: chars)) := fun chars c hc => by
    simp [step, hc]
  have hmore := (List.forall_mem_cons.mp h.isNumberChar).2
  rw [List.cons_append, run_cons (step_of_number hfirst), run_append hstep hmore,
    run_number hcs]
  simp [Token.ofNumber?, isNumber_iff.mpr h]

/-- **Step lemma**: a token is read as a whole, if nothing follows that could belong to it. -/
theorem run_lexeme {t : Token} {lexeme : List Char} (h : Lexeme t lexeme)
    (hcs : t.isOpenEnded = true → ∀ c ∈ cs.head?, IsDelimiter c) :
    between.run (lexeme ++ cs) = (between.run cs).map (t :: ·) := by
  cases h with
  | openBrace | closeBrace | openBracket | closeBracket | comma | colon => exact run_cons_token rfl
  | null | boolTrue | boolFalse =>
      exact run_keyword rfl (List.all_eq_true.mp rfl) rfl fun c hc => (hcs rfl c hc).1
  | number h => exact run_numeral h fun c hc => (hcs rfl c hc).2
  | @text pieces quoted h =>
      have hclose := Content.close_foldl_empty pieces
      rw [List.cons_append, List.append_assoc, run_cons rfl]
      change (text {}).run (quoted ++ '"' :: cs) = _
      rw [run_text h, hclose]

/-- **Run lemma**: what is spelled is read. -/
theorem run_of_spelling {tokens : List Token} (h : Spelling tokens cs)
    (htokens : Separated tokens) : between.run cs = some tokens := by
  induction h with
  | nil => rfl
  | blank hc h ih => rw [run_cons (step_of_isBlank hc), ih htokens]
  | token ht h ih =>
      obtain ⟨hhead, htail⟩ := List.isChain_cons.mp htokens
      rw [run_lexeme ht fun hopen => h.isDelimiter_head fun t' ht' => hhead t' ht' hopen, ih htail]
      rfl

/-! ### What is read is spelled -/

/-- The characters of a token that has been begun, and the state that they lead to. -/
inductive Pending : ScanState → List Char → Prop
  | between : Pending between []
  | word (letters : List Char) : Pending (word letters) letters.reverse
  | number (chars : List Char) : Pending (number chars) chars.reverse
  | text {pieces : List Piece} {cs : List Char} (h : Quoted pieces cs) :
      Pending (text (pieces.foldl Content.pushPiece {})) ('"' :: cs)
  | escape {pieces : List Piece} {cs : List Char} (h : Quoted pieces cs) :
      Pending (escape (pieces.foldl Content.pushPiece {})) ('"' :: (cs ++ ['\\']))
  | unit {pieces : List Piece} {cs digits : List Char} {missing value : ℕ} (h : Quoted pieces cs)
      (hlength : digits.length + missing = 4) (hpos : 0 < missing)
      (hvalue : hexNumber? 0 digits = some value) :
      Pending (unit (pieces.foldl Content.pushPiece {}) missing value)
        ('"' :: (cs ++ '\\' :: 'u' :: digits))

end ScanState

/-- Pieces after one another. -/
theorem Quoted.append {pieces pieces' : List Piece} {cs cs' : List Char} (h : Quoted pieces cs)
    (h' : Quoted pieces' cs') : Quoted (pieces ++ pieces') (cs ++ cs') := by
  induction h with
  | nil => exact h'
  | plain hquote hescape hcontrol h ih => exact .plain hquote hescape hcontrol ih
  | letter he h ih => exact .letter he ih
  | unit hlength hu h ih =>
      simp only [List.cons_append, List.append_assoc]
      exact .unit hlength hu ih

theorem hexNumber?_concat {digits : List Char} {value u x : ℕ} {d : Char}
    (hu : hexNumber? value digits = some u) (hd : hexValue? d = some x) :
    hexNumber? value (digits ++ [d]) = some (u * 16 + x) := by
  induction digits generalizing value with
  | nil =>
      obtain rfl := Option.some.inj hu
      simp [hexNumber?, hd]
  | cons c digits ih =>
      obtain ⟨y, hy, hu⟩ := Option.bind_eq_some_iff.mp hu
      simp [hexNumber?, hy, ih hu]

theorem lexeme_of_ofWord? {t : Token} (h : Token.ofWord? cs = some t) : Lexeme t cs := by
  have hword : ∀ {word : String}, String.ofList cs = word → cs = word.toList := by
    rintro _ rfl
    exact String.toList_ofList.symm
  unfold Token.ofWord? at h
  split at h
  · rename_i heq
    cases h
    exact hword heq ▸ .null
  · rename_i heq
    cases h
    exact hword heq ▸ .boolTrue
  · rename_i heq
    cases h
    exact hword heq ▸ .boolFalse
  · cases h

theorem lexeme_of_ofNumber? {t : Token} (h : Token.ofNumber? cs = some t) : Lexeme t cs := by
  unfold Token.ofNumber? at h
  split at h
  · rename_i hnumber
    cases h
    exact .number (isNumber_iff.mp hnumber)
  · cases h

namespace ScanState

/-- After a character has been read, whatever is spelled by what is pending and by what follows
makes, with the new tokens in front, what is spelled with the character. -/
def Continues (done : List Char) (c : Char) (new : List Token) (s : ScanState) : Prop :=
  ∃ done', Pending s done' ∧ ∀ tokens cs,
    Spelling tokens (done' ++ cs) → Spelling (new ++ tokens) (done ++ c :: cs)

/-- A character that belongs to a token that is not complete. -/
theorem continues_of_pending {done : List Char} {s : ScanState} (h : Pending s (done ++ [c])) :
    Continues done c [] s := by
  refine ⟨done ++ [c], h, fun tokens cs hspelling => ?_⟩
  rwa [List.append_assoc] at hspelling

/-- A character between tokens is a token or a blank, or begins a token. -/
theorem continues_of_start {new : List Token} {s : ScanState} (h : start c = some (new, s)) :
    Continues [] c new s := by
  unfold start at h
  split at h
  · rename_i t hpunctuation
    cases h
    have ht : Lexeme t [c] := by
      unfold punctuation? at hpunctuation
      split at hpunctuation <;> cases hpunctuation
      exacts [.openBrace, .closeBrace, .openBracket, .closeBracket, .comma, .colon]
    refine ⟨[], .between, fun tokens cs hspelling => ?_⟩
    exact (Spelling.token ht hspelling : Spelling (t :: tokens) ([c] ++ cs))
  · split at h
    · rename_i hblank
      cases h
      exact ⟨[], .between, fun tokens cs hspelling => .blank hblank hspelling⟩
    · split at h
      · rename_i hquote
        cases h
        exact continues_of_pending (hquote ▸ .text .nil)
      · split at h
        · cases h
          exact continues_of_pending (.number [c])
        · split at h
          · cases h
            exact continues_of_pending (.word [c])
          · cases h

/-- A token that ends where a character cannot belong to it. -/
theorem continues_of_ends {token? : Option Token} {done : List Char} {new : List Token}
    {s : ScanState} (hlexeme : ∀ t, token? = some t → Lexeme t done)
    (h : (do let t ← token?; let (tokens, s) ← start c; return (t :: tokens, s)) = some (new, s)) :
    Continues done c new s := by
  obtain ⟨t, ht, h⟩ := Option.bind_eq_some_iff.mp h
  obtain ⟨⟨new', s'⟩, hc, h⟩ := Option.bind_eq_some_iff.mp h
  cases h
  obtain ⟨done', hpending, hspells⟩ := continues_of_start hc
  refine ⟨done', hpending, fun tokens cs hspelling => ?_⟩
  exact .token (hlexeme t ht) (hspells tokens cs hspelling)

/-- **Step lemma**: a character continues what is pending. -/
theorem Pending.step {s s' : ScanState} {done : List Char} {new : List Token} (hs : Pending s done)
    (h : s.step c = some (new, s')) : Continues done c new s' := by
  cases hs with
  | between => exact continues_of_start h
  | word letters =>
      rw [ScanState.step] at h
      split at h
      · cases h
        exact continues_of_pending (by simpa using Pending.word (c :: letters))
      · exact continues_of_ends (fun t => lexeme_of_ofWord?) h
  | number chars =>
      rw [ScanState.step] at h
      split at h
      · cases h
        exact continues_of_pending (by simpa using Pending.number (c :: chars))
      · exact continues_of_ends (fun t => lexeme_of_ofNumber?) h
  | @text pieces quoted hquoted =>
      rw [ScanState.step] at h
      split at h
      · rename_i hquote
        cases h
        have hclose := Content.close_foldl_empty pieces
        refine ⟨[], .between, fun tokens cs hspelling => ?_⟩
        rw [hclose, hquote]
        simpa using Spelling.token (.text hquoted) hspelling
      · rename_i hquote
        split at h
        · rename_i hbackslash
          cases h
          exact continues_of_pending (hbackslash ▸ .escape hquoted)
        · rename_i hbackslash
          split at h
          · cases h
          · rename_i hcontrol
            cases h
            have hplain := hquoted.append (.plain hquote hbackslash (Nat.not_lt.mp hcontrol) .nil)
            exact continues_of_pending (by simpa [Content.pushPiece] using Pending.text hplain)
  | @escape pieces quoted hquoted =>
      rw [ScanState.step] at h
      split at h
      · rename_i hunit
        cases h
        have hnone : hexNumber? 0 [] = some 0 := rfl
        exact continues_of_pending
          (by simpa [hunit] using Pending.unit hquoted rfl (by decide) hnone)
      · obtain ⟨d, hd, h⟩ := Option.bind_eq_some_iff.mp h
        cases h
        have hletter := hquoted.append (.letter hd .nil)
        exact continues_of_pending (by simpa [Content.pushPiece] using Pending.text hletter)
  | @unit pieces quoted digits missing value hquoted hlength hpos hvalue =>
      obtain ⟨x, hx, h⟩ := Option.bind_eq_some_iff.mp h
      have hvalue' := hexNumber?_concat hvalue hx
      dsimp only at h
      split at h
      · cases h
        have hunit := hquoted.append (.unit (by simp; omega) hvalue' .nil)
        exact continues_of_pending (by simpa [Content.pushPiece] using Pending.text hunit)
      · cases h
        exact continues_of_pending
          (by simpa using Pending.unit hquoted (by simp; omega) (by omega) hvalue')

/-- **Run lemma**: what is read is spelled, together with what is pending. -/
theorem spelling_of_run {s : ScanState} {tokens : List Token} {done : List Char}
    (hs : Pending s done) (h : s.run cs = some tokens) : Spelling tokens (done ++ cs) := by
  induction cs generalizing s tokens done with
  | nil =>
      cases hs with
      | between =>
          cases h
          exact .nil
      | word letters =>
          obtain ⟨t, ht, h⟩ := Option.bind_eq_some_iff.mp h
          cases h
          exact .token (lexeme_of_ofWord? ht) .nil
      | number chars =>
          obtain ⟨t, ht, h⟩ := Option.bind_eq_some_iff.mp h
          cases h
          exact .token (lexeme_of_ofNumber? ht) .nil
      | text | escape | unit => cases h
  | cons c cs ih =>
      obtain ⟨⟨new, s'⟩, hstep, h⟩ := Option.bind_eq_some_iff.mp h
      obtain ⟨rest, hrun, rfl⟩ := Option.map_eq_some_iff.mp h
      obtain ⟨done', hpending, hspells⟩ := hs.step hstep
      exact hspells rest cs (ih hpending hrun)

end ScanState

/-- The tokens that a text is cut into are tokens that spell it. -/
theorem spelling_of_scan {text : String} {tokens : List Token}
    (h : Token.scan text = some tokens) : Spelling tokens text.toList :=
  ScanState.spelling_of_run .between (scan_eq_run.symm.trans h)

/-- A text is cut into the tokens that spell it, if none of them runs into the next. -/
theorem scan_of_spelling {text : String} {tokens : List Token}
    (h : Spelling tokens text.toList) (htokens : Separated tokens) :
    Token.scan text = some tokens :=
  scan_eq_run.trans (ScanState.run_of_spelling h htokens)

end Betweenness.Json
