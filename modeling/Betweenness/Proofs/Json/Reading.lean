import Betweenness.Proofs.Json.Scanning

/-!
# Reading a text is the grammar

The reader keeps a stack of the arrays and objects that are open. Its run over the tokens of a
value hands the value to what is open around it, whatever the stack (`ReadState.ReadsOver`). In the
other direction the tokens that have been read determine the state that they lead to
(`ReadState.Follows`), so that a run that ends with a complete value has read the tokens of that
value. Together with the scanner this says that a text is read as a value exactly if it spells it.

## Main results

* `ofTokens?_eq_some_iff`: a value is read from its own tokens only.
* `read_eq_some_iff`: a text is read as the value that it spells.
-/

namespace Betweenness.Json

/-! ### Induction over values -/

/-- What holds of a value if it holds of the values in it holds of every value. -/
@[elab_as_elim]
theorem induct {P : Json → Prop} (null : P .null) (bool : ∀ b, P (.bool b))
    (number : ∀ lexeme, P (.number lexeme)) (text : ∀ content, P (.text content))
    (array : ∀ items, (∀ v ∈ items, P v) → P (.array items))
    (object : ∀ members, (∀ m ∈ members, P m.2) → P (.object members)) (v : Json) : P v :=
  match v with
  | .null => null
  | .bool b => bool b
  | .number lexeme => number lexeme
  | .text content => text content
  | .array items => array items fun v _ => induct null bool number text array object v
  | .object members => object members fun m hm =>
      have : sizeOf m.2 < 1 + sizeOf members := by
        have hmem := List.sizeOf_lt_of_mem hm
        have hsnd : sizeOf m = 1 + sizeOf m.1 + sizeOf m.2 := rfl
        omega
      induct null bool number text array object m.2

/-! ### Tokens of values -/

/-- The tokens of a member of an object. -/
def tokensOfMember (m : Option String × Json) : List Token := .text m.1 :: .colon :: tokens m.2

theorem tokens_array (items : List Json) : tokens (.array items) =
    .openBracket :: (withCommas (items.map tokens) ++ [.closeBracket]) := by
  have hitems : itemTokens items = items.map tokens := by
    induction items with
    | nil => rfl
    | cons v vs ih => rw [itemTokens, ih, List.map_cons]
  rw [tokens, hitems]

theorem tokens_object (members : List (Option String × Json)) : tokens (.object members) =
    .openBrace :: (withCommas (members.map tokensOfMember) ++ [.closeBrace]) := by
  have hmembers : memberTokens members = members.map tokensOfMember := by
    induction members with
    | nil => rfl
    | cons m ms ih => rw [memberTokens, ih, List.map_cons, tokensOfMember]
  rw [tokens, hmembers]

theorem withCommas_cons_cons (part next : List Token) (parts : List (List Token)) :
    withCommas (part :: next :: parts) = part ++ .comma :: withCommas (next :: parts) := by
  rw [withCommas, List.intercalate_cons_cons, List.append_assoc]
  rfl

theorem withCommas_cons (part : List Token) (parts : List (List Token)) :
    withCommas (part :: parts) = part ++ parts.flatMap (.comma :: ·) := by
  induction parts generalizing part with
  | nil => simp [withCommas]
  | cons next parts ih => rw [withCommas_cons_cons, ih, List.flatMap_cons]; rfl

theorem withCommas_concat (parts : List (List Token)) (part : List Token) :
    withCommas (parts ++ [part]) = parts.flatMap (· ++ [.comma]) ++ part := by
  induction parts with
  | nil => simp [withCommas]
  | cons first parts ih =>
      obtain ⟨next, rest, hrest⟩ := List.exists_cons_of_ne_nil
        (List.append_ne_nil_of_right_ne_nil parts (List.cons_ne_nil part []))
      rw [List.cons_append, hrest, withCommas_cons_cons, ← hrest, ih]
      simp

/-- The last item of an array has no comma behind it. -/
theorem tokens_array_concat (items : List Json) (v : Json) : tokens (.array (items ++ [v])) =
    .openBracket :: (items.flatMap fun v => v.tokens ++ [.comma]) ++ v.tokens ++
      [.closeBracket] := by
  rw [tokens_array, List.map_append, List.map_singleton, withCommas_concat, List.flatMap_map]
  rfl

/-- The last member of an object has no comma behind it. -/
theorem tokens_object_concat (members : List (Option String × Json)) (m : Option String × Json) :
    tokens (.object (members ++ [m])) = .openBrace :: (members.flatMap fun m =>
      tokensOfMember m ++ [.comma]) ++ tokensOfMember m ++ [.closeBrace] := by
  rw [tokens_object, List.map_append, List.map_singleton, withCommas_concat, List.flatMap_map]
  rfl

/-! ### What is made of tokens is read -/

namespace ReadState

/-- The first token of a value does not close an array. -/
theorem foldlM_firstItem (v : Json) (stack : List Frame) (rest : List Token) :
    (v.tokens ++ rest).foldlM step (firstItem stack) =
      (v.tokens ++ rest).foldlM step (value (.array [] :: stack)) := by
  cases v <;> rfl

/-- The tokens of a value take the reader over the value, which is handed to what is open around
it. -/
def ReadsOver (v : Json) : Prop := ∀ (stack : List Frame) (rest : List Token),
  (v.tokens ++ rest).foldlM step (value stack) = rest.foldlM step (deliver v stack)

/-- The items of an array behind some others, each after a comma. -/
theorem foldlM_items {more : List Json} (h : ∀ v ∈ more, ReadsOver v) (stack : List Frame)
    (done : List Json) (rest : List Token) :
    (more.flatMap (fun v => .comma :: v.tokens) ++ .closeBracket :: rest).foldlM step
      (afterItem stack done) =
        rest.foldlM step (deliver (.array (done.reverse ++ more)) stack) := by
  induction more generalizing done with
  | nil =>
      rw [List.append_nil]
      rfl
  | cons v more ih =>
      obtain ⟨hv, hmore⟩ := List.forall_mem_cons.mp h
      rw [List.flatMap_cons, List.append_assoc, List.cons_append, List.foldlM_cons]
      refine (hv (.array done :: stack) _).trans ((ih hmore (v :: done)).trans ?_)
      rw [List.reverse_cons, List.append_assoc]
      rfl

/-- The members of an object behind some others, each after a comma. -/
theorem foldlM_members {more : List (Option String × Json)} (h : ∀ m ∈ more, ReadsOver m.2)
    (stack : List Frame) (done : List (Option String × Json)) (rest : List Token) :
    (more.flatMap (fun m => .comma :: tokensOfMember m) ++ .closeBrace :: rest).foldlM step
      (afterMember stack done) =
        rest.foldlM step (deliver (.object (done.reverse ++ more)) stack) := by
  induction more generalizing done with
  | nil =>
      rw [List.append_nil]
      rfl
  | cons m more ih =>
      obtain ⟨hm, hmore⟩ := List.forall_mem_cons.mp h
      rw [List.flatMap_cons, List.append_assoc, List.cons_append, List.foldlM_cons]
      refine (hm (.object done m.1 :: stack) _).trans ((ih hmore (m :: done)).trans ?_)
      rw [List.reverse_cons, List.append_assoc]
      rfl

/-- **Run lemma**: every value is read over. -/
theorem readsOver (v : Json) : ReadsOver v := by
  induction v using induct with
  | null | bool | number | text => exact fun stack rest => rfl
  | array items ih =>
      intro stack rest
      rw [tokens_array, List.cons_append, List.foldlM_cons]
      cases items with
      | nil => rfl
      | cons v more =>
          obtain ⟨hv, hmore⟩ := List.forall_mem_cons.mp ih
          rw [List.map_cons, withCommas_cons, List.flatMap_map, List.append_assoc,
            List.append_assoc]
          exact (foldlM_firstItem v stack _).trans
            ((hv _ _).trans (foldlM_items hmore stack [v] rest))
  | object members ih =>
      intro stack rest
      rw [tokens_object, List.cons_append, List.foldlM_cons]
      cases members with
      | nil => rfl
      | cons m more =>
          obtain ⟨hm, hmore⟩ := List.forall_mem_cons.mp ih
          rw [List.map_cons, withCommas_cons, List.flatMap_map, List.append_assoc,
            List.append_assoc]
          exact (hm (.object [] m.1 :: stack) _).trans (foldlM_members hmore stack [m] rest)

end ReadState

/-- The tokens of a value are read as the value. -/
theorem ofTokens?_tokens (v : Json) : ofTokens? v.tokens = some v := by
  have hrun := ReadState.readsOver v [] []
  rw [List.append_nil] at hrun
  rw [ofTokens?, hrun]
  rfl

/-! ### What is read is made of tokens -/

/-- The tokens by which an array or an object has been opened, up to the value that it waits for. -/
def Frame.opening : Frame → List Token
  | array items => .openBracket :: items.reverse.flatMap fun v => v.tokens ++ [.comma]
  | object members key => .openBrace :: (members.reverse.flatMap fun m =>
      tokensOfMember m ++ [.comma]) ++ [.text key, .colon]

namespace ReadState

/-- The tokens by which all that is open has been opened. -/
def openings : List Frame → List Token
  | [] => []
  | frame :: stack => openings stack ++ frame.opening

/-- The tokens that lead to a state. -/
inductive Follows : List Token → ReadState → Prop
  | value (stack : List Frame) : Follows (openings stack) (value stack)
  | firstItem (stack : List Frame) : Follows (openings stack ++ [.openBracket]) (firstItem stack)
  | afterItem (stack : List Frame) (items : List Json) (v : Json) :
      Follows (openings (.array items :: stack) ++ v.tokens) (afterItem stack (v :: items))
  | firstKey (stack : List Frame) : Follows (openings stack ++ [.openBrace]) (firstKey stack)
  | nextKey (stack : List Frame) (members : List (Option String × Json)) :
      Follows (openings stack ++ .openBrace :: members.reverse.flatMap fun m =>
        tokensOfMember m ++ [.comma]) (nextKey stack members)
  | afterKey (stack : List Frame) (members : List (Option String × Json)) (key : Option String) :
      Follows (openings stack ++ .openBrace :: (members.reverse.flatMap fun m =>
        tokensOfMember m ++ [.comma]) ++ [.text key]) (afterKey stack members key)
  | afterMember (stack : List Frame) (members : List (Option String × Json))
      (key : Option String) (v : Json) :
      Follows (openings (.object members key :: stack) ++ v.tokens)
        (afterMember stack ((key, v) :: members))
  | complete (v : Json) : Follows v.tokens (complete v)

theorem follows_deliver (v : Json) (stack : List Frame) :
    Follows (openings stack ++ v.tokens) (deliver v stack) := by
  cases stack with
  | nil => exact .complete v
  | cons frame stack =>
      cases frame with
      | array items => exact .afterItem stack items v
      | object members key => exact .afterMember stack members key v

/-- The first token of a value. -/
theorem follows_open? {stack : List Frame} {t : Token} {s : ReadState}
    (h : open? stack t = some s) : Follows (openings stack ++ [t]) s := by
  cases t <;> cases h
  case null => exact follows_deliver .null stack
  case bool b => exact follows_deliver (.bool b) stack
  case number lexeme => exact follows_deliver (.number lexeme) stack
  case text content => exact follows_deliver (.text content) stack
  case openBracket => exact .firstItem stack
  case openBrace => exact .firstKey stack

/-- **Step lemma**: a token that is read leads to the next state. -/
theorem Follows.step {tokens : List Token} {s s' : ReadState} {t : Token}
    (h : Follows tokens s) (hstep : s.step t = some s') : Follows (tokens ++ [t]) s' := by
  cases h with
  | value stack => exact follows_open? hstep
  | firstItem stack =>
      by_cases ht : t = .closeBracket
      · subst ht
        cases hstep
        simpa [tokens_array, withCommas] using follows_deliver (.array []) stack
      · have hopen : open? (.array [] :: stack) t = some s' := by
          cases t <;> first | exact hstep | exact absurd rfl ht
        simpa [openings, Frame.opening] using follows_open? hopen
  | afterItem stack items v =>
      cases t <;> cases hstep
      case comma.refl =>
        simpa [openings, Frame.opening] using Follows.value (.array (v :: items) :: stack)
      case closeBracket.refl =>
        simpa [openings, Frame.opening, tokens_array_concat] using
          follows_deliver (.array (v :: items).reverse) stack
  | firstKey stack =>
      cases t <;> cases hstep
      case closeBrace.refl =>
        simpa [tokens_object, withCommas] using follows_deliver (.object []) stack
      case text.refl key => simpa using Follows.afterKey stack [] key
  | nextKey stack members =>
      cases t <;> cases hstep
      case text.refl key => simpa using Follows.afterKey stack members key
  | afterKey stack members key =>
      cases t <;> cases hstep
      case colon.refl =>
        simpa [openings, Frame.opening] using Follows.value (.object members key :: stack)
  | afterMember stack members key v =>
      cases t <;> cases hstep
      case comma.refl =>
        simpa [openings, Frame.opening, tokensOfMember] using
          Follows.nextKey stack ((key, v) :: members)
      case closeBrace.refl =>
        simpa [openings, Frame.opening, tokens_object_concat, tokensOfMember] using
          follows_deliver (.object ((key, v) :: members).reverse) stack
  | complete v => cases t <;> cases hstep

/-- **Run lemma**: the tokens that have been read lead to the state that they end in. -/
theorem Follows.run {tokens more : List Token} {s s' : ReadState} (h : Follows tokens s)
    (hrun : more.foldlM ReadState.step s = some s') : Follows (tokens ++ more) s' := by
  induction more generalizing tokens s with
  | nil =>
      cases hrun
      rwa [List.append_nil]
  | cons t more ih =>
      obtain ⟨s₁, hstep, hrun⟩ := Option.bind_eq_some_iff.mp hrun
      have := ih (h.step hstep) hrun
      rwa [List.append_assoc] at this

end ReadState

/-- A value is read from its own tokens only. -/
theorem ofTokens?_eq_some_iff {tokens : List Token} {v : Json} :
    ofTokens? tokens = some v ↔ tokens = v.tokens := by
  constructor
  · intro h
    obtain ⟨s, hrun, hresult⟩ := Option.bind_eq_some_iff.mp h
    have hfollows := (ReadState.Follows.value []).run hrun
    cases hfollows <;> cases hresult
    rfl
  · rintro rfl
    exact ofTokens?_tokens v

/-! ### Whole texts -/

/-- Tokens on both sides of one that ends by itself. -/
theorem Separated.append_cons {front back : List Token} {t : Token} (hfront : Separated front)
    (ht : t.isOpenEnded = false) (hback : Separated back) : Separated (front ++ t :: back) := by
  refine List.isChain_append.mpr ⟨hfront, ?_, fun _ _ t' ht' _ => ?_⟩
  · exact List.isChain_cons.mpr ⟨fun _ _ hopen => absurd hopen (by simp [ht]), hback⟩
  · obtain rfl := Option.some.inj ht'
    exact ht

theorem Separated.cons {back : List Token} {t : Token} (ht : t.isOpenEnded = false)
    (hback : Separated back) : Separated (t :: back) := .append_cons .nil ht hback

theorem separated_withCommas {parts : List (List Token)} (h : ∀ part ∈ parts, Separated part) :
    Separated (withCommas parts) := by
  induction parts with
  | nil => exact .nil
  | cons part parts ih =>
      obtain ⟨hpart, hparts⟩ := List.forall_mem_cons.mp h
      cases parts with
      | nil => simpa [withCommas] using hpart
      | cons next parts =>
          rw [withCommas_cons_cons]
          exact hpart.append_cons rfl (ih hparts)

/-- There is punctuation between any two words or numbers of a value. -/
theorem separated_tokens (v : Json) : Separated v.tokens := by
  induction v using induct with
  | null | bool | number | text => exact .singleton _
  | array items ih =>
      rw [tokens_array]
      exact .cons rfl ((separated_withCommas (by simpa using ih)).append_cons rfl .nil)
  | object members ih =>
      rw [tokens_object]
      refine .cons rfl ((separated_withCommas ?_).append_cons rfl .nil)
      intro part hpart
      obtain ⟨m, hm, rfl⟩ := List.mem_map.mp hpart
      exact .cons rfl (.cons rfl (ih m hm))

/-- **A text is read as the value that it spells**, and not at all if it spells none. -/
theorem read_eq_some_iff {text : String} {v : Json} : read text = some v ↔ Spells text v := by
  constructor
  · intro h
    obtain ⟨tokens, hscan, htokens⟩ := Option.bind_eq_some_iff.mp h
    obtain rfl := ofTokens?_eq_some_iff.mp htokens
    exact spelling_of_scan hscan
  · intro h
    exact Option.bind_eq_some_iff.mpr
      ⟨v.tokens, scan_of_spelling h (separated_tokens v), ofTokens?_tokens v⟩

end Betweenness.Json
