import Betweenness.Json.Basic
import Betweenness.Proofs.Json.Reading

/-!
# What is written reads back

The compact text of a value spells the value, if the numbers in it are numbers: the only part of a
value that is written as it stands is a number. Reading it therefore gives the value back.

Half of a surrogate pair is written for a text that has no characters, and has none itself.

## Main results

* `spells_write`: the compact text of a value spells it.
* `read_write`: it is read as the value.
* `isNumeral_toString`: natural numbers in decimal are numbers.
-/

namespace Betweenness.Json

/-! ### Spellings put together -/

theorem Spelling.append {front back : List Token} {cs ds : List Char} (h : Spelling front cs)
    (h' : Spelling back ds) : Spelling (front ++ back) (cs ++ ds) := by
  induction h with
  | nil => exact h'
  | blank hc h ih => exact .blank hc ih
  | token ht h ih =>
      rw [List.append_assoc]
      exact .token ht ih

/-- A token by itself. -/
theorem Lexeme.spelling {t : Token} {lexeme : List Char} (h : Lexeme t lexeme) :
    Spelling [t] lexeme := by
  have := Spelling.token h .nil
  rwa [List.append_nil] at this

/-- Spellings with a comma between any two. -/
theorem Spelling.withCommas {β : Type} {parts : β → List Token} {texts : β → List Char}
    {xs : List β} (h : ∀ x ∈ xs, Spelling (parts x) (texts x)) :
    Spelling (withCommas (xs.map parts)) ([','].intercalate (xs.map texts)) := by
  induction xs with
  | nil => exact .nil
  | cons x xs ih =>
      obtain ⟨hx, hxs⟩ := List.forall_mem_cons.mp h
      cases xs with
      | nil => simpa [Json.withCommas] using hx
      | cons y xs =>
          rw [List.map_cons, List.map_cons, List.map_cons, List.map_cons, withCommas_cons_cons,
            List.intercalate_cons_cons, List.append_assoc]
          exact hx.append (.token .comma (ih hxs))

/-! ### Texts in quotes -/

theorem hexNumber?_control : ∀ n < 0x20,
    hexNumber? 0 ['0', '0', hexDigit (n / 16), hexDigit n] = some n := by
  decide

/-- What is written for a character is one piece, which stands for the character. -/
theorem exists_piece (c : Char) : ∃ p, Quoted [p] (escape c) ∧
    ∀ pieces, decode (p :: pieces) = (decode pieces).map (c :: ·) := by
  have hletter : ∀ e, escaped? e = some c → Quoted [.char c] ['\\', e] := fun e he =>
    .letter he .nil
  unfold escape
  split_ifs with hquote hescape hb hf hn hr ht hcontrol
  · exact ⟨.char c, hletter _ (congrArg some hquote.symm), fun _ => rfl⟩
  · exact ⟨.char c, hletter _ (congrArg some hescape.symm), fun _ => rfl⟩
  · exact ⟨.char c, hletter _ (congrArg some hb.symm), fun _ => rfl⟩
  · exact ⟨.char c, hletter _ (congrArg some hf.symm), fun _ => rfl⟩
  · exact ⟨.char c, hletter _ (congrArg some hn.symm), fun _ => rfl⟩
  · exact ⟨.char c, hletter _ (congrArg some hr.symm), fun _ => rfl⟩
  · exact ⟨.char c, hletter _ (congrArg some ht.symm), fun _ => rfl⟩
  · refine ⟨.unit c.toNat, .unit rfl (hexNumber?_control _ hcontrol) .nil, fun pieces => ?_⟩
    have hlow : ¬ IsLowHalf c.toNat := fun h => by have := h.1; omega
    have hhigh : ¬ IsHighHalf c.toNat := fun h => by have := h.1; omega
    rw [decode_of_plain hlow hhigh, Char.ofNat_toNat]
  · exact ⟨.char c, .plain hquote hescape (Nat.not_lt.mp hcontrol) .nil, fun _ => rfl⟩

theorem exists_pieces (cs : List Char) :
    ∃ pieces, Quoted pieces (cs.flatMap escape) ∧ decode pieces = some cs := by
  induction cs with
  | nil => exact ⟨[], .nil, rfl⟩
  | cons c cs ih =>
      obtain ⟨p, hp, hdecode⟩ := exists_piece c
      obtain ⟨pieces, hpieces, hcs⟩ := ih
      exact ⟨p :: pieces, hp.append hpieces, by rw [hdecode, hcs, Option.map_some]⟩

theorem lexeme_quoted (content : Option String) :
    Lexeme (.text content) (quoted content).toList := by
  cases content with
  | none =>
      have hhalf : hexNumber? 0 ['d', '8', '0', '0'] = some 0xD800 := rfl
      exact .text (.unit rfl hhalf .nil)
  | some s =>
      obtain ⟨pieces, hpieces, hdecode⟩ := exists_pieces s.toList
      have := Lexeme.text hpieces
      rw [hdecode, Option.map_some, String.ofList_toList] at this
      simpa [quoted] using this

/-! ### Values -/

theorem write_array (items : List Json) :
    write (.array items) = "[" ++ commaSeparated (items.map write) ++ "]" := by
  have hitems : writeItems items = items.map write := by
    induction items with
    | nil => rfl
    | cons v vs ih => rw [writeItems, ih, List.map_cons]
  rw [write, hitems]

theorem write_object (members : List (Option String × Json)) : write (.object members) =
    "\x7b" ++ commaSeparated (members.map fun m => quoted m.1 ++ ":" ++ write m.2) ++ "\x7d" := by
  have hmembers : writeMembers members = members.map fun m => quoted m.1 ++ ":" ++ write m.2 := by
    induction members with
    | nil => rfl
    | cons m ms ih => rw [writeMembers, ih, List.map_cons]
  rw [write, hmembers]

/-- The numbers in a value are numbers. -/
inductive HasNumerals : Json → Prop
  | null : HasNumerals .null
  | bool (b : Bool) : HasNumerals (.bool b)
  | number {lexeme : String} (h : IsNumeral lexeme.toList) : HasNumerals (.number lexeme)
  | text (content : Option String) : HasNumerals (.text content)
  | array {items : List Json} (h : ∀ v ∈ items, HasNumerals v) : HasNumerals (.array items)
  | object {members : List (Option String × Json)} (h : ∀ m ∈ members, HasNumerals m.2) :
      HasNumerals (.object members)

/-- **The compact text of a value spells it.** -/
theorem spells_write {v : Json} (h : v.HasNumerals) : Spells v.write v := by
  induction h with
  | null => exact Lexeme.null.spelling
  | bool b =>
      cases b with
      | true => exact Lexeme.boolTrue.spelling
      | false => exact Lexeme.boolFalse.spelling
  | number h =>
      have := (Lexeme.number h).spelling
      rwa [String.ofList_toList] at this
  | text content => exact (lexeme_quoted content).spelling
  | @array items h ih =>
      have hitems := Spelling.withCommas ih
      have := Spelling.token .openBracket (hitems.append Lexeme.closeBracket.spelling)
      simpa [Spells, tokens_array, write_array, commaSeparated, Function.comp_def] using this
  | @object members h ih =>
      have hmembers : ∀ m ∈ members, Spelling (tokensOfMember m)
          ((quoted m.1).toList ++ ':' :: m.2.write.toList) := fun m hm =>
        .token (lexeme_quoted m.1) (.token .colon (ih m hm))
      have := Spelling.token .openBrace
        ((Spelling.withCommas hmembers).append Lexeme.closeBrace.spelling)
      simpa [Spells, tokens_object, write_object, commaSeparated, Function.comp_def] using this

/-- **What is written reads back.** -/
theorem read_write {v : Json} (h : v.HasNumerals) : read v.write = some v :=
  read_eq_some_iff.mpr (spells_write h)

/-! ### Natural numbers -/

theorem isDigits_toDigits (n : ℕ) : IsDigits (Nat.toDigits 10 n) :=
  ⟨Nat.toDigits_ne_nil, fun _ hc => Nat.isDigit_of_mem_toDigits (by decide) (by decide) hc⟩

/-- No zero is in front of other digits. -/
theorem isWholePart_toDigits (n : ℕ) : IsWholePart (Nat.toDigits 10 n) := by
  by_cases hn : n = 0
  · subst hn
    exact .zero
  refine .digits (isDigits_toDigits n) ?_
  induction n using Nat.strongRecOn with
  | ind n ih =>
      rw [Nat.toDigits_eq_if (by decide)]
      split
      · rename_i hlt
        have hdigit : ∀ n < 10, n ≠ 0 → Nat.digitChar n ≠ '0' := by decide
        simpa using hdigit n hlt hn
      · rename_i hge
        obtain ⟨d, ds, hds, -⟩ := (isDigits_toDigits (n / 10)).exists_cons
        have := ih (n / 10) (by omega) (by omega)
        rw [hds] at this ⊢
        exact this

/-- Natural numbers in decimal are numbers. -/
theorem isNumeral_toString (n : ℕ) : IsNumeral (toString n).toList := by
  have := IsNumeral.positive (.mk (isWholePart_toDigits n) .absent .absent)
  simpa [Nat.toString_eq_ofList_toDigits] using this

end Betweenness.Json
