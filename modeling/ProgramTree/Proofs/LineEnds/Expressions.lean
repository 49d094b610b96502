import ProgramTree.Proofs.Grammar.Lexemes
import ProgramTree.Proofs.LineEnds.Readers

/-! # Expressions over other line ends

A carriage return is a blank like the line feed behind it, so it changes nothing
between tokens. No number and no operator goes on over the end of a line. A
string may hold a carriage return but no line feed, so one that goes on over the
end of a line is refused either way. -/

namespace ProgramTree.Reader

set_option autoImplicit false

section Literals

variable {text : List Char}

theorem takeSign_withReturns (text : List Char) : Binary64.takeSign (withReturns text) =
    ((Binary64.takeSign text).1, withReturns (Binary64.takeSign text).2) := by
  fun_cases Binary64.takeSign text with
  | case1 rest => rw [withReturns_cons (by decide), Binary64.takeSign]
  | case2 rest => rw [withReturns_cons (by decide), Binary64.takeSign]
  | case3 text hminus hplus =>
    exact Binary64.takeSign.eq_3 _ (withReturns_ne_cons (by decide) hminus)
      (withReturns_ne_cons (by decide) hplus)

theorem exponentPart?_withReturns (text : List Char) : exponentPart? (withReturns text) =
    (exponentPart? text).map fun (exponent, rest) => (exponent, withReturns rest) := by
  cases text with
  | nil => rfl
  | cons c tail =>
    by_cases hc : c = '\n'
    · subst hc
      rfl
    · rw [withReturns_cons hc, exponentPart?, exponentPart?]
      split
      · rw [takeSign_withReturns]
        generalize Binary64.takeSign tail = signed
        obtain ⟨negative, digits⟩ := signed
        dsimp only
        rw [takeWhile_withReturns (by decide) (by decide), dropWhile_withReturns (by decide)]
        split <;> rfl
      · rfl

theorem floatTail?_withReturns (text : List Char) : floatTail? (withReturns text) =
    (floatTail? text).map fun (fraction, exponent, rest) =>
      (fraction, exponent, withReturns rest) := by
  rcases begins_or_not '.' text with ⟨tail, rfl⟩ | hne
  · rw [withReturns_cons (by decide), floatTail?, floatTail?,
      takeWhile_withReturns (by decide) (by decide), dropWhile_withReturns (by decide)]
    dsimp only
    rw [exponentPart?_withReturns]
    cases exponentPart? (tail.dropWhile Char.isDigit) <;> split <;> simp_all
  · rw [floatTail?.eq_2 _ hne, floatTail?.eq_2 _ (withReturns_ne_cons (by decide) hne),
      exponentPart?_withReturns]
    cases exponentPart? text <;> rfl

/-- What follows the sign of a number. -/
def unsigned? (negative : Bool) (body : List Char) : Option (Literal × List Char) :=
  match body.takeWhile Char.isDigit with
  | [] => none
  | whole =>
    match floatTail? (body.dropWhile Char.isDigit) with
    | some (fraction, exponent, final) =>
      some (.float (Numeral.value ⟨negative, whole, fraction, exponent⟩), final)
    | none => (int64? (signedValue negative whole)).map fun value =>
        (.int value, body.dropWhile Char.isDigit)

theorem number?_minus (rest : List Char) : number? ('-' :: rest) = unsigned? true rest := rfl

theorem number?_of_ne (h : ∀ rest, text = '-' :: rest → False) :
    number? text = unsigned? false text := by
  unfold number?
  split
  rename_i negative body heq
  split at heq
  · exact absurd rfl (h _)
  · cases heq
    rfl

theorem unsigned?_withReturns (negative : Bool) (body : List Char) :
    unsigned? negative (withReturns body) =
      (unsigned? negative body).map fun (value, rest) => (value, withReturns rest) := by
  rw [unsigned?, unsigned?, takeWhile_withReturns (by decide) (by decide),
    dropWhile_withReturns (by decide), floatTail?_withReturns]
  split
  · rfl
  · cases floatTail? (body.dropWhile Char.isDigit) with
    | some _ => rfl
    | none => cases int64? (signedValue negative (body.takeWhile Char.isDigit)) <;> rfl

theorem number?_withReturns (text : List Char) : number? (withReturns text) =
    (number? text).map fun (value, rest) => (value, withReturns rest) := by
  rcases begins_or_not '-' text with ⟨tail, rfl⟩ | hne
  · rw [withReturns_cons (by decide), number?_minus, number?_minus, unsigned?_withReturns]
  · rw [number?_of_ne hne, number?_of_ne (withReturns_ne_cons (by decide) hne),
      unsigned?_withReturns]

theorem suffix_of_number? {value : Literal} {rest : List Char}
    (h : number? text = some (value, rest)) : rest <:+ text := by
  obtain ⟨spelled, _, rfl⟩ := Grammar.number_of_read h
  exact List.suffix_append spelled rest

/-- The character that an escape stands for. -/
def escapeMeaning? (escaped : Char) : Option Char :=
  if escaped = 'n' then some '\n'
  else if escaped = 't' then some '\t'
  else if escaped = '"' ∨ escaped = '\\' then some escaped
  else none

theorem stringBody_escape (escaped : Char) (rest : List Char) :
    stringBody ('\\' :: escaped :: rest) = (escapeMeaning? escaped).elim
      (.hard ⟨.invalidString, rest⟩) fun c => (stringBody rest).map (c :: ·) := by
  rw [stringBody, ← escapeMeaning?]
  cases escapeMeaning? escaped <;> cases stringBody rest <;> rfl

theorem stringBody_plain {c : Char} (hquote : c ≠ '"') (hfeed : c ≠ '\n') (hbackslash : c ≠ '\\')
    (rest : List Char) : stringBody (c :: rest) = (stringBody rest).map (c :: ·) := by
  rw [stringBody.eq_6 c rest hquote hfeed (fun h => absurd h hbackslash)
    (fun _ _ h => absurd h hbackslash)]
  cases stringBody rest <;> rfl

/-- A string that is read holds no line end that is changed; over a line feed it fails, and so it
does over the carriage return and the line feed. -/
theorem stringBody_outcome (text : List Char) :
    Outcome.Alike Eq text (stringBody text) (stringBody (withReturns text)) := by
  induction hn : text.length using Nat.strongRecOn generalizing text with
  | ind n ih =>
    subst hn
    cases text with
    | nil => exact .hard
    | cons c rest =>
      by_cases hfeed : c = '\n'
      · subst hfeed
        rw [withReturns_newline, stringBody_plain (c := '\r') (by decide) (by decide) (by decide),
          stringBody, stringBody]
        exact .hard
      rw [withReturns_cons hfeed]
      by_cases hquote : c = '"'
      · subst hquote
        rw [stringBody, stringBody]
        exact .ok rfl (List.suffix_cons '"' rest)
      by_cases hbackslash : c = '\\'
      · subst hbackslash
        cases rest with
        | nil => exact .hard
        | cons escaped rest =>
          by_cases hescaped : escaped = '\n'
          · subst hescaped
            rw [withReturns_newline, stringBody_escape, stringBody_escape]
            exact .hard
          · rw [withReturns_cons hescaped, stringBody_escape, stringBody_escape]
            cases escapeMeaning? escaped with
            | none => exact .hard
            | some d =>
              have hsuffix : rest <:+ '\\' :: escaped :: rest :=
                (List.suffix_cons escaped rest).trans (List.suffix_cons '\\' _)
              have hlt : rest.length < ('\\' :: escaped :: rest).length := by
                rw [List.length_cons, List.length_cons]
                omega
              exact ((ih _ hlt rest rfl).map fun _ _ heq => congrArg (d :: ·) heq).within hsuffix
      · rw [stringBody_plain hquote hfeed hbackslash, stringBody_plain hquote hfeed hbackslash]
        have hlt : rest.length < (c :: rest).length := Nat.lt_succ_self rest.length
        exact ((ih _ hlt rest rfl).map fun _ _ heq => congrArg (c :: ·) heq).within
          (List.suffix_cons c rest)

theorem stringBody_alike : Alike Eq text stringBody stringBody :=
  fun rest _ => stringBody_outcome rest

end Literals

section Pieces

variable {text : List Char}

theorem fieldSuffix_alike : Alike Eq text fieldSuffix fieldSuffix :=
  (symbol_alike '.').same fun _ => identifier_alike.committed.same fun _ => .pure rfl

theorem symbol_plain (op : BinaryOp) : ∀ c ∈ op.symbol.toList, c ≠ '\n' ∧ c ≠ '\r' := by
  cases op <;> simp [BinaryOp.symbol]

theorem operator_alike (ops : List BinaryOp) : Alike Eq text (operator ops) (operator ops) := by
  intro rest _
  simp only [operator, skipSpaces_withReturns, isPrefixOf_withReturns (symbol_plain _)]
  cases hfind : ops.find? fun op => op.symbol.toList.isPrefixOf (skipSpaces rest) with
  | none => exact .soft
  | some op =>
    have hprefix : op.symbol.toList.isPrefixOf (skipSpaces rest) = true := by
      simpa only using List.find?_some hfind
    obtain ⟨tail, htail⟩ := List.isPrefixOf_iff_prefix.mp hprefix
    have hsymbol := withReturns_run fun c hc => (symbol_plain op c hc).1
    have hlength : op.symbol.toList.length = op.symbol.length := String.length_toList
    dsimp only
    rw [← htail, withReturns_append, hsymbol, ← hlength, List.drop_left, List.drop_left]
    have hskip : op.symbol.toList ++ tail <:+ rest := htail ▸ skipSpaces_suffix rest
    exact .ok rfl ((List.suffix_append _ tail).trans hskip)

end Pieces

section Operands

variable {inner : Reader Expression} {text after : List Char}

theorem operand_not_eq (h : skipSpaces text = '!' :: after) :
    operand inner text = (operand inner after).committed.map (.unary .not) := by
  rw [operand]
  split <;> simp_all

theorem operand_minus_eq (h : skipSpaces text = '-' :: after) :
    operand inner text = orElse (suffixed inner)
      (fun _ => (operand inner after).committed.map (.unary .neg)) ('-' :: after) := by
  rw [operand]
  unfold orElse
  split
  · simp_all
  · rename_i tail heq
    obtain rfl : after = tail := (List.cons.inj (h.symm.trans heq)).2
    cases suffixed inner ('-' :: after) <;> rfl
  · rename_i hne
    exact absurd h (hne after)

theorem operand_eq (hnot : ∀ after, skipSpaces text = '!' :: after → False)
    (hminus : ∀ after, skipSpaces text = '-' :: after → False) :
    operand inner text = orElse (suffixed inner) unexpected (skipSpaces text) := by
  rw [operand]
  unfold orElse
  split
  · rename_i heq
    exact absurd heq (hnot _)
  · rename_i heq
    exact absurd heq (hminus _)
  · cases suffixed inner (skipSpaces text) <;> rfl

end Operands

section Layers

variable {text : List Char} {inner inner' : Reader Expression} (h : Alike Eq text inner inner')
include h

theorem call_alike : Alike Eq text (call inner) (call inner') :=
  qualified_alike.same fun _ => (symbol_alike '(').same fun _ =>
    (Alike.separated_eq (symbol_alike ',') h).same fun _ =>
      (expect_alike ')').committed.same fun _ => .pure rfl

theorem callOrName_alike : Alike Eq text (callOrName inner) (callOrName inner') :=
  (call_alike h).orElse (identifier_alike.same fun _ => .pure rfl)

theorem parenthesized_alike : Alike Eq text (parenthesized inner) (parenthesized inner') :=
  h.committed.same fun _ => (expect_alike ')').committed.same fun _ => .pure rfl

theorem primary_alike : Alike Eq text (primary inner) (primary inner') := by
  intro rest hrest
  rcases begins_or_not '(' rest with ⟨tail, rfl⟩ | hparenthesis
  · have hsuffix := List.suffix_cons '(' tail
    rw [withReturns_cons (by decide), primary, primary]
    exact (parenthesized_alike h tail (hsuffix.trans hrest)).within hsuffix
  rcases begins_or_not '"' rest with ⟨tail, rfl⟩ | hquote
  · have hsuffix := List.suffix_cons '"' tail
    have hstring : Alike Eq text
        (do return Expression.literal (.string (String.ofList (← stringBody))))
        (do return Expression.literal (.string (String.ofList (← stringBody)))) :=
      stringBody_alike.same fun _ => .pure rfl
    rw [withReturns_cons (by decide), primary, primary]
    exact (hstring tail (hsuffix.trans hrest)).within hsuffix
  rw [primary.eq_3 _ _ hparenthesis hquote, primary.eq_3 _ _
    (withReturns_ne_cons (by decide) hparenthesis) (withReturns_ne_cons (by decide) hquote),
    number?_withReturns, word_withReturns, afterWord_withReturns]
  cases hnumber : number? rest with
  | some found => exact .ok rfl (suffix_of_number? hnumber)
  | none =>
    cases wordLiteral? (word rest) with
    | some value => exact .ok rfl (afterWord_suffix rest)
    | none => exact callOrName_alike h rest hrest

theorem indexSuffix_alike : Alike Eq text (indexSuffix inner) (indexSuffix inner') :=
  (symbol_alike '[').same fun _ => h.committed.same fun _ =>
    (expect_alike ']').committed.same fun _ => .pure rfl

theorem suffixed_alike : Alike Eq text (suffixed inner) (suffixed inner') :=
  (primary_alike h).same fun _ =>
    (fieldSuffix_alike.orElse (indexSuffix_alike h)).many_eq.same fun _ => .pure rfl

theorem operand_outcome {rest : List Char} (hrest : rest <:+ text) :
    Outcome.Alike Eq rest (operand inner rest) (operand inner' (withReturns rest)) := by
  induction hn : rest.length using Nat.strongRecOn generalizing rest with
  | ind n ih =>
    subst hn
    have hsuffix := skipSpaces_suffix rest
    have hskip := skipSpaces_withReturns rest
    have hoperand {c : Char} {tail : List Char} (hstart : skipSpaces rest = c :: tail) :
        Outcome.Alike Eq tail (operand inner tail).committed
          (operand inner' (withReturns tail)).committed :=
      (ih tail.length (length_of_skipSpaces hstart)
        ((suffix_of_skipSpaces hstart).trans hrest) rfl).committed
    rcases begins_or_not '!' (skipSpaces rest) with ⟨tail, hstart⟩ | hnot
    · rw [hstart, withReturns_cons (by decide)] at hskip
      rw [operand_not_eq hstart, operand_not_eq hskip]
      exact ((hoperand hstart).map fun _ _ heq => congrArg _ heq).within
        (suffix_of_skipSpaces hstart)
    rcases begins_or_not '-' (skipSpaces rest) with ⟨tail, hstart⟩ | hminus
    · rw [hstart] at hsuffix
      rw [hstart, withReturns_cons (by decide)] at hskip
      rw [operand_minus_eq hstart, operand_minus_eq hskip,
        ← withReturns_cons (c := '-') (by decide)]
      refine ((suffixed_alike h).orElse_at (hsuffix.trans hrest) ?_).within hsuffix
      exact ((hoperand hstart).map fun _ _ heq => congrArg _ heq).within (List.suffix_cons '-' tail)
    · have hother : Alike Eq text (unexpected : Reader Expression) unexpected := fun _ _ => .soft
      have hnot' := withReturns_ne_cons (c := '!') (by decide) hnot
      have hminus' := withReturns_ne_cons (c := '-') (by decide) hminus
      rw [← hskip] at hnot' hminus'
      rw [operand_eq hnot hminus, operand_eq hnot' hminus', hskip]
      exact ((suffixed_alike h).orElse hother _ (hsuffix.trans hrest)).within hsuffix

theorem operand_alike : Alike Eq text (operand inner) (operand inner') :=
  fun _ hrest => operand_outcome h hrest

theorem level_alike (ops : List BinaryOp) : Alike Eq text (level ops inner) (level ops inner') :=
  h.same fun _ => ((operator_alike ops).same fun _ => h.committed.same fun _ =>
    .pure rfl).many_eq.same fun _ => .pure rfl

theorem layers_alike : Alike Eq text (layers inner) (layers inner') := by
  have hlevels (levels : List (List BinaryOp)) :
      Alike Eq text (levels.foldr level (operand inner)) (levels.foldr level (operand inner')) := by
    induction levels with
    | nil => exact operand_alike h
    | cons ops levels ih => exact level_alike ih ops
  exact hlevels levels

end Layers

theorem expression_outcome (text : List Char) :
    Outcome.Alike Eq text (expression text) (expression (withReturns text)) := by
  induction hn : text.length using Nat.strongRecOn generalizing text with
  | ind n ih =>
    subst hn
    rw [expression, expression]
    have hnested : Alike Eq text (below text fun rest _ => expression rest)
        (below (withReturns text) fun rest _ => expression rest) :=
      .below fun rest hlt _ => ih rest.length hlt rest rfl
    exact layers_alike hnested text (List.suffix_refl text)

theorem expression_alike {text : List Char} : Alike Eq text expression expression :=
  fun rest _ => expression_outcome rest

end ProgramTree.Reader
