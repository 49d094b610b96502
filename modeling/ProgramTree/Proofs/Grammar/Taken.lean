import ProgramTree.Proofs.Grammar.Bodies
import ProgramTree.Proofs.Grammar.Progress

/-! # What the readers of the grammar take

Each reader of the grammar leaves an end of its text, and each one that is
repeated takes a character. The readers over a reader of nested expressions or
statements ask it only behind a character that they have taken, so it matters
only what it does on shorter texts. With that the readers that restrict what
they nest are the same as the ones that do not. -/

namespace ProgramTree.Reader

set_option autoImplicit false

variable {text : List Char}

section Tokens

theorem position_takes : Takes 0 text position position :=
  fun rest _ => .ok (List.suffix_refl rest) (Nat.le_refl _)

theorem spaces_takes : Takes 0 text spaces spaces :=
  fun rest _ => .ok (skipSpaces_suffix rest) (length_skipSpaces_le rest)

theorem symbolOr_takes (complaint : Complaint) (c : Char) :
    Takes 1 text (symbolOr complaint c) (symbolOr complaint c) := by
  intro rest _
  rw [symbolOr]
  cases hskip : skipSpaces rest with
  | nil => exact .soft
  | cons d tail =>
    dsimp only
    split
    · exact .ok (suffix_of_skipSpaces hskip) (length_of_skipSpaces hskip)
    · exact .soft

theorem symbol_takes (c : Char) : Takes 1 text (symbol c) (symbol c) :=
  symbolOr_takes _ c

theorem expect_takes (c : Char) : Takes 1 text (expect c) (expect c) :=
  symbolOr_takes _ c

theorem word_append_afterWord (text : List Char) : word text ++ afterWord text = text :=
  List.takeWhile_append_dropWhile

theorem length_afterWord (text : List Char) :
    (afterWord text).length + (word text).length = text.length := by
  rw [Nat.add_comm, ← List.length_append, word_append_afterWord]

theorem keyword_takes {expected : String} {n : Nat} (h : n ≤ expected.toList.length) :
    Takes n text (keyword expected) (keyword expected) := by
  intro rest _
  rw [keyword]
  split
  · rename_i hword
    have hlength := length_afterWord rest
    rw [hword] at hlength
    exact .ok (afterWord_suffix rest) (by omega)
  · exact .soft

theorem identifier_takes : Takes 1 text identifier identifier := by
  intro rest _
  cases hread : identifier rest with
  | ok name mid =>
    have hlt := length_of_identifier hread
    rw [identifier_eq] at hread
    split at hread <;> cases hread
    exact .ok (afterWord_suffix rest) hlt
  | soft failure => exact .soft
  | hard failure => exact .hard

theorem qualifier_takes : Takes 1 text qualifier qualifier := by
  intro rest _
  rcases begins_or_not ':' rest with ⟨tail, rfl⟩ | hne
  · have hafter : Takes 1 tail (do return ':' :: (← identifier))
        (do return ':' :: (← identifier)) :=
      identifier_takes.bind fun _ => .pure _
    exact (hafter tail (List.suffix_refl tail)).within (List.suffix_cons ':' tail)
      (by rw [List.length_cons]; omega)
  · rw [qualifier.eq_2 _ hne]
    exact .soft

theorem qualified_takes : Takes 1 text qualified qualified :=
  identifier_takes.bind fun _ => qualifier_takes.optional.bind fun _ => .pure _

theorem typeName_takes : Takes 1 text typeName typeName := by
  refine qualified_takes.bind (m := 0) fun base => ?_
  intro rest _
  exact .ok (suffix_of_takeBrackets rest) (suffix_of_takeBrackets rest).length_le

theorem packageName_takes : Takes 1 text packageName packageName := by
  intro rest _
  simp only [packageName]
  split
  · exact .soft
  · rename_i hne
    exact .ok (List.dropWhile_suffix _) (length_dropWhile_lt hne)

theorem commentText_takes : Takes 1 text commentText commentText := by
  intro rest _
  rcases begins_pair_or_not '/' '/' rest with ⟨tail, rfl⟩ | hne
  · have hsuffix : tail <:+ '/' :: '/' :: tail :=
      (List.suffix_cons '/' tail).trans (List.suffix_cons '/' _)
    have hline := List.dropWhile_suffix (l := tail) fun c => c != '\n' && c != '\r'
    refine .ok (hline.trans hsuffix) ?_
    have hle := hline.length_le
    simp only [List.length_cons]
    omega
  · rw [commentText.eq_2 _ hne]
    exact .soft

end Tokens

section Literals

theorem suffix_of_exponentPart? {exponent : Int} {rest : List Char}
    (h : exponentPart? text = some (exponent, rest)) : rest <:+ text := by
  obtain ⟨spelled, _, rfl⟩ := Grammar.exponent_of_read h
  exact List.suffix_append spelled rest

theorem suffix_of_floatTail? {fraction rest : List Char} {exponent : Int}
    (h : floatTail? text = some (fraction, exponent, rest)) : rest <:+ text := by
  obtain ⟨spelled, _, rfl⟩ := Grammar.floatTail_of_read h
  exact List.suffix_append spelled rest

theorem stringBody_takes : Takes 1 text stringBody stringBody := by
  intro rest _
  cases hread : stringBody rest with
  | ok value mid =>
    obtain ⟨spelled, _, htext⟩ := Grammar.quotedAll_of_read hread
    have hsuffix : mid <:+ rest := by
      rw [htext]
      exact (List.suffix_cons '"' mid).trans (List.suffix_append spelled _)
    exact .ok hsuffix (length_of_stringBody hread)
  | soft failure => exact .soft
  | hard failure => exact .hard

theorem operator_takes (ops : List BinaryOp) : Takes 1 text (operator ops) (operator ops) := by
  intro rest _
  rw [operator]
  cases hfind : ops.find? fun op => op.symbol.toList.isPrefixOf (skipSpaces rest) with
  | none => exact .soft
  | some op =>
    have hprefix : op.symbol.toList.isPrefixOf (skipSpaces rest) = true := by
      simpa only using List.find?_some hfind
    obtain ⟨tail, htail⟩ := List.isPrefixOf_iff_prefix.mp hprefix
    have hpos : 0 < op.symbol.length := by cases op <;> decide
    have hlength : op.symbol.toList.length = op.symbol.length := String.length_toList
    have hskip : op.symbol.toList ++ tail <:+ rest := htail ▸ skipSpaces_suffix rest
    have hle := hskip.length_le
    rw [List.length_append, hlength] at hle
    dsimp only
    rw [← htail, ← hlength, List.drop_left]
    exact .ok ((List.suffix_append _ tail).trans hskip) (by omega)

end Literals

section Expressions

variable {inner inner' : Reader Expression}

theorem comma_takes : Takes 1 text comma comma :=
  symbol_takes ','

theorem fieldSuffix_takes : Takes 1 text fieldSuffix fieldSuffix :=
  (symbol_takes '.').bind fun _ => identifier_takes.committed.bind fun _ => .pure _

theorem closing_takes (c : Char) : Takes 1 text (committed (expect c)) (committed (expect c)) :=
  (expect_takes c).committed

theorem parenthesized_takes {n : Nat} (h : Takes n text inner inner') :
    Takes n text (parenthesized inner) (parenthesized inner') :=
  h.committed.bind fun _ => (closing_takes ')').bind fun _ => .pure _

section Layers

variable (h : Inside text inner inner')
include h

theorem call_takes : Takes 1 text (call inner) (call inner') :=
  qualified_takes.inside fun _ _ hpart hlt =>
    (symbol_takes '(').bind fun _ =>
      (Takes.separated comma_takes (h.takes hpart hlt)).bind fun _ =>
        (closing_takes ')').bind fun _ => .pure _

theorem callOrName_takes : Takes 1 text (callOrName inner) (callOrName inner') :=
  (call_takes h).orElse (identifier_takes.bind fun _ => .pure _)

theorem primary_takes : Takes 1 text (primary inner) (primary inner') := by
  intro rest hrest
  rcases begins_or_not '(' rest with ⟨tail, rfl⟩ | hparenthesis
  · have hsuffix := List.suffix_cons '(' tail
    have hlt : tail.length < text.length := Nat.lt_of_lt_of_le (Nat.lt_succ_self _) hrest.length_le
    rw [primary, primary]
    exact (parenthesized_takes (h.takes (hsuffix.trans hrest) hlt) tail
      (List.suffix_refl tail)).within hsuffix (Nat.le_refl _)
  rcases begins_or_not '"' rest with ⟨tail, rfl⟩ | hquote
  · have hstring : Takes 1 tail
        (do return Expression.literal (.string (String.ofList (← stringBody))))
        (do return Expression.literal (.string (String.ofList (← stringBody)))) :=
      stringBody_takes.bind fun _ => .pure _
    rw [primary, primary]
    exact (hstring tail (List.suffix_refl tail)).within (List.suffix_cons '"' tail)
      (by rw [List.length_cons]; omega)
  rw [primary.eq_3 _ _ hparenthesis hquote, primary.eq_3 _ _ hparenthesis hquote]
  cases hnumber : number? rest with
  | some found => exact .ok (suffix_of_number? hnumber) (length_of_number? hnumber)
  | none =>
    cases hword : wordLiteral? (word rest) with
    | some value => exact .ok (afterWord_suffix rest) (length_of_wordLiteral? hword)
    | none => exact callOrName_takes h rest hrest

theorem indexSuffix_takes : Takes 1 text (indexSuffix inner) (indexSuffix inner') :=
  (symbol_takes '[').inside fun _ _ hpart hlt => (h.takes hpart hlt).committed.bind fun _ =>
    (closing_takes ']').bind fun _ => .pure _

theorem suffix_takes : Takes 1 text (suffix inner) (suffix inner') :=
  fieldSuffix_takes.orElse (indexSuffix_takes h)

theorem suffixed_takes : Takes 1 text (suffixed inner) (suffixed inner') :=
  (primary_takes h).bind fun _ => (suffix_takes h).many.bind fun _ => .pure _

theorem operand_outcome_takes {rest : List Char} (hrest : rest <:+ text) :
    Outcome.Takes 1 rest (operand inner rest) (operand inner' rest) := by
  -- prefixes nest in the operand itself, on the text behind them
  induction hn : rest.length using Nat.strongRecOn generalizing rest with
  | ind n ih =>
    subst hn
    have hsuffix := skipSpaces_suffix rest
    have hle := length_skipSpaces_le rest
    have hoperand {c : Char} {tail : List Char} (hstart : skipSpaces rest = c :: tail) :
        Outcome.Takes 1 tail (operand inner tail).committed (operand inner' tail).committed :=
      (ih tail.length (length_of_skipSpaces hstart)
        ((suffix_of_skipSpaces hstart).trans hrest) rfl).committed
    rcases begins_or_not '!' (skipSpaces rest) with ⟨tail, hstart⟩ | hnot
    · have hlt := length_of_skipSpaces hstart
      rw [operand_not_eq hstart, operand_not_eq hstart]
      exact ((hoperand hstart).map _).within (suffix_of_skipSpaces hstart) (by omega)
    rcases begins_or_not '-' (skipSpaces rest) with ⟨tail, hstart⟩ | hminus
    · rw [hstart] at hsuffix hle
      rw [operand_minus_eq hstart, operand_minus_eq hstart]
      refine ((suffixed_takes h).orElse_at (hsuffix.trans hrest) ?_).within hsuffix (by omega)
      exact ((hoperand hstart).map _).within (List.suffix_cons '-' tail)
        (by rw [List.length_cons]; omega)
    · have hother : Takes 1 text (unexpected : Reader Expression) unexpected := fun _ _ => .soft
      rw [operand_eq hnot hminus, operand_eq hnot hminus]
      exact ((suffixed_takes h).orElse hother _ (hsuffix.trans hrest)).within hsuffix (by omega)

theorem operand_takes : Takes 1 text (operand inner) (operand inner') :=
  fun _ hrest => operand_outcome_takes h hrest

end Layers

theorem level_takes (ops : List BinaryOp) (h : Takes 1 text inner inner') :
    Takes 1 text (level ops inner) (level ops inner') :=
  h.bind fun _ => ((operator_takes ops).bind fun _ =>
    h.committed.bind fun _ => .pure _).many.bind fun _ => .pure _

theorem levels_takes (h : Inside text inner inner') (levels : List (List BinaryOp)) :
    Takes 1 text (levels.foldr level (operand inner)) (levels.foldr level (operand inner')) := by
  induction levels with
  | nil => exact operand_takes h
  | cons ops levels ih => exact level_takes ops ih

theorem layers_takes (h : Inside text inner inner') : Takes 1 text (layers inner) (layers inner') :=
  levels_takes h levels

/-- Nothing is lost by restricting the reader of nested expressions to shorter texts. -/
theorem expression_outcome_takes (text : List Char) :
    Outcome.Takes 1 text (expression text) (layers expression text) := by
  -- on shorter texts the reader takes something, and that is all the layers ask of it
  induction hn : text.length using Nat.strongRecOn generalizing text with
  | ind n ih =>
    subst hn
    have hnested : Inside text (nested text) expression := inside_below fun rest hlt =>
      (ih rest.length hlt rest rfl).self.mono (Nat.zero_le 1)
    rw [expression]
    exact layers_takes hnested text (List.suffix_refl text)

theorem expression_eq_layers : expression = layers expression :=
  funext fun text => (expression_outcome_takes text).eq

theorem expression_takes : Takes 1 text expression expression :=
  fun rest _ => (expression_outcome_takes rest).self

end Expressions

section Statements

variable {inner inner' : Reader Draft}

theorem condition_takes : Takes 1 text condition condition :=
  ((expect_takes '(').bind fun _ => expression_takes.bind fun _ =>
    (expect_takes ')').bind fun _ => .pure _).committed

theorem lastExpression_takes : Takes 1 text lastExpression lastExpression :=
  (expression_takes.bind fun _ => (expect_takes ';').bind fun _ => .pure _).committed

theorem assigned_takes : Takes 1 text assigned assigned :=
  (symbol_takes '=').bind fun _ => expression_takes.committed

theorem comment_takes : Takes 1 text comment comment :=
  position_takes.skip fun _ => commentText_takes.bind fun _ => .pure _

theorem jump_takes {word : String} (form : Form) (hword : 1 ≤ word.toList.length) :
    Takes 1 text (jump word form) (jump word form) :=
  position_takes.skip fun _ => (keyword_takes hword).bind fun _ =>
    (closing_takes ';').bind fun _ => .pure _

theorem returnStatement_takes : Takes 1 text returnStatement returnStatement :=
  position_takes.skip fun _ => (keyword_takes (by decide)).bind fun _ =>
    (Takes.separated comma_takes expression_takes).bind fun _ =>
      (closing_takes ';').bind fun _ => .pure _

theorem valued_takes {word : String} (form : Option Expression → Form)
    (hword : 1 ≤ word.toList.length) : Takes 1 text (valued word form) (valued word form) :=
  position_takes.skip fun _ => (keyword_takes hword).bind fun _ =>
    lastExpression_takes.bind fun _ => .pure _

theorem variableDefinition_takes : Takes 1 text variableDefinition variableDefinition :=
  position_takes.skip fun _ => typeName_takes.bind fun _ => spaces_takes.bind fun _ =>
    identifier_takes.bind fun _ => assigned_takes.optional.bind fun _ =>
      (closing_takes ';').bind fun _ => .pure _

theorem assignmentOrCall_takes : Takes 1 text assignmentOrCall assignmentOrCall := by
  refine position_takes.skip fun _ => expression_takes.bind fun _ =>
    assigned_takes.optional.bind fun value =>
      (closing_takes ';').bind (m := 0) fun _ => ?_
  cases value with
  | some value => exact .pure _
  | none => exact .pure _

theorem catchKeyword_takes : Takes 1 text catchKeyword catchKeyword := by
  intro rest hrest
  have hkeyword : Takes 1 text (keyword "catch") (keyword "catch") := keyword_takes (by decide)
  rw [catchKeyword]
  rcases hkeyword.outcomes hrest with ⟨a, mid, hitem, _, hmid, hlength⟩ | ⟨failure, hitem, _⟩ |
    ⟨failure, hitem, _⟩ <;> rw [hitem]
  · exact .ok hmid hlength
  · exact .hard
  · exact .hard

/-- What stands in the parentheses after the keyword of a handler. -/
def caughtNames : Reader (List Char × List Char) :=
  committed do
    expect '('
    spaces
    let caught ← typeName
    spaces
    let name ← identifier
    expect ')'
    return (caught, name)

theorem caughtNames_takes : Takes 1 text caughtNames caughtNames :=
  ((expect_takes '(').bind fun _ => spaces_takes.bind fun _ => typeName_takes.bind fun _ =>
    spaces_takes.bind fun _ => identifier_takes.bind fun _ =>
      (expect_takes ')').bind fun _ => .pure _).committed

section Bodies

variable {n : Nat} (h : Takes n text inner inner')
include h

theorem closeBody_takes : Takes 1 text (closeBody inner) (closeBody inner') :=
  h.many.skip fun _ => (closing_takes '}').bind fun _ => .pure _

theorem body_takes : Takes 1 text (body inner) (body inner') :=
  (closing_takes '{').bind fun _ => closeBody_takes h

end Bodies

section Nested

variable (h : Inside text inner inner')
include h

theorem block_takes : Takes 1 text (block inner) (block inner') :=
  position_takes.skip fun _ => (symbol_takes '{').inside fun _ _ hpart hlt =>
    (closeBody_takes (h.takes hpart hlt)).bind fun _ => .pure _

theorem elseIfClause_takes : Takes 1 text (elseIfClause inner) (elseIfClause inner') :=
  spaces_takes.skip fun _ => position_takes.skip fun _ =>
    (keyword_takes (by decide)).inside fun _ _ hpart hlt => spaces_takes.bind fun _ =>
      (keyword_takes (Nat.zero_le _)).bind fun _ =>
        condition_takes.bind fun _ =>
          (body_takes (h.takes hpart hlt)).bind fun _ => .pure _

theorem elseClause_takes : Takes 1 text (elseClause inner) (elseClause inner') :=
  spaces_takes.skip fun _ => position_takes.skip fun _ =>
    (keyword_takes (by decide)).inside fun _ _ hpart hlt =>
      (body_takes (h.takes hpart hlt)).bind fun _ => .pure _

theorem ifStatement_takes : Takes 1 text (ifStatement inner) (ifStatement inner') :=
  position_takes.skip fun _ => (keyword_takes (by decide)).inside fun _ _ hpart hlt =>
    condition_takes.bind fun _ =>
      (body_takes (h.takes hpart hlt)).bind fun _ =>
        (elseIfClause_takes (h.restrict hpart)).many.bind fun _ =>
          (elseClause_takes (h.restrict hpart)).optional.bind fun _ => .pure _

theorem whileLoop_takes : Takes 1 text (whileLoop inner) (whileLoop inner') :=
  position_takes.skip fun _ => (keyword_takes (by decide)).inside fun _ _ hpart hlt =>
    condition_takes.bind fun _ =>
      (body_takes (h.takes hpart hlt)).bind fun _ => .pure _

theorem catchClause_takes : Takes 1 text (catchClause inner) (catchClause inner') :=
  spaces_takes.skip fun _ => position_takes.skip fun _ =>
    catchKeyword_takes.inside fun _ _ hpart hlt => caughtNames_takes.bind fun _ =>
      (body_takes (h.takes hpart hlt)).bind fun _ => .pure _

theorem tryStatement_takes : Takes 1 text (tryStatement inner) (tryStatement inner') :=
  position_takes.skip fun _ => (keyword_takes (by decide)).inside fun _ _ hpart hlt =>
    (body_takes (h.takes hpart hlt)).bind fun _ =>
      (catchClause_takes (h.restrict hpart)).bind fun _ => .pure _

/-- The first word of a statement calls for readers that do the same. -/
theorem byKeyword?_takes (w : List Char) :
    Option.Rel (Takes 1 text) (byKeyword? inner w) (byKeyword? inner' w) := by
  rw [byKeyword?, byKeyword?]
  repeat' split
  · exact .some (ifStatement_takes h)
  · exact .some (whileLoop_takes h)
  · exact .some (tryStatement_takes h)
  · exact .some (jump_takes _ (by decide))
  · exact .some (jump_takes _ (by decide))
  · exact .some returnStatement_takes
  · exact .some (valued_takes _ (by decide))
  · exact .some (valued_takes _ (by decide))
  · exact .none

theorem statementLayer_takes : Takes 1 text (statementLayer inner) (statementLayer inner') := by
  intro rest hrest
  have hsuffix := skipSpaces_suffix rest
  have hstart := hsuffix.trans hrest
  have hle := length_skipSpaces_le rest
  refine Outcome.Takes.within ?_ hsuffix (Nat.add_le_add_right hle 1)
  rcases begins_pair_or_not '/' '/' (skipSpaces rest) with ⟨tail, heq⟩ | hcomment
  · simp only [statementLayer, heq]
    exact comment_takes _ (List.suffix_refl _)
  rcases begins_or_not '{' (skipSpaces rest) with ⟨tail, heq⟩ | hblock
  · simp only [statementLayer, heq]
    exact block_takes h _ (heq ▸ hstart)
  · rw [statementLayer_eq rfl hcomment hblock, statementLayer_eq rfl hcomment hblock]
    have hother : Takes 1 text (orElse variableDefinition assignmentOrCall)
        (orElse variableDefinition assignmentOrCall) :=
      variableDefinition_takes.orElse assignmentOrCall_takes
    have hkeyword := byKeyword?_takes h (word (skipSpaces rest))
    generalize byKeyword? inner (word (skipSpaces rest)) = reader at hkeyword ⊢
    generalize byKeyword? inner' (word (skipSpaces rest)) = reader' at hkeyword ⊢
    cases hkeyword with
    | some hreader => exact hreader _ hstart
    | none => exact hother _ hstart

end Nested

/-- Nothing is lost by restricting the reader of the statements in bodies to shorter texts. -/
theorem statement_outcome_takes (text : List Char) :
    Outcome.Takes 1 text (statement text) (statementLayer statement text) := by
  induction hn : text.length using Nat.strongRecOn generalizing text with
  | ind n ih =>
    subst hn
    have hnested : Inside text (within text) statement := inside_below fun rest hlt =>
      (ih rest.length hlt rest rfl).self.mono (Nat.zero_le 1)
    rw [statement_eq]
    exact statementLayer_takes hnested text (List.suffix_refl text)

theorem statement_eq_layer : statement = statementLayer statement :=
  funext fun text => (statement_outcome_takes text).eq

theorem statement_takes : Takes 1 text statement statement :=
  fun rest _ => (statement_outcome_takes rest).self

end Statements

section Units

theorem parameter_takes : Takes 1 text parameter parameter :=
  spaces_takes.skip fun _ => typeName_takes.bind fun _ => spaces_takes.bind fun _ =>
    identifier_takes.bind fun _ => .pure _

theorem returnType_takes : Takes 1 text returnType returnType :=
  spaces_takes.skip fun _ => typeName_takes.bind fun _ => .pure _

theorem returnTypes_takes : Takes 1 text returnTypes returnTypes :=
  (symbol_takes '(').bind fun _ =>
    (Takes.separatedSome comma_takes returnType_takes).committed.bind fun _ =>
      (closing_takes ')').bind fun _ => .pure _

theorem functionName_takes : Takes 1 text functionName functionName := by
  intro rest hrest
  have hsuffix := skipSpaces_suffix rest
  have hle := length_skipSpaces_le rest
  rw [functionName]
  rcases identifier_takes.outcomes (hsuffix.trans hrest) with ⟨a, mid, hitem, _, hmid, hlength⟩ |
    ⟨failure, hitem, _⟩ | ⟨failure, hitem, _⟩ <;> rw [hitem]
  · exact .ok (hmid.trans hsuffix) (by omega)
  · exact .hard
  · exact .hard

/-- A function over a reader of the statements in its body. -/
def functionOver (inner : Reader Draft) : Reader Draft := do
  let start ← position
  keyword "function"
  let name ← functionName
  committed (expect '(')
  let params ← separated comma parameter
  committed (expect ')')
  let returns ← optional returnTypes
  let statements ← body inner
  return .node start (.function (String.ofList name) params (returns.getD [])) statements

theorem functionOver_statement : functionOver statement = function := rfl

def itemOver (inner : Reader Draft) : Reader Draft := do
  spaces
  orElse comment (functionOver inner)

theorem itemOver_statement : itemOver statement = item := rfl

section Over

variable {n : Nat} {inner inner' : Reader Draft} (h : Takes n text inner inner')
include h

theorem functionOver_takes : Takes 1 text (functionOver inner) (functionOver inner') :=
  position_takes.skip fun _ => (keyword_takes (by decide)).bind fun _ =>
    functionName_takes.bind fun _ => (closing_takes '(').bind fun _ =>
      (Takes.separated comma_takes parameter_takes).bind fun _ =>
        (closing_takes ')').bind fun _ => returnTypes_takes.optional.bind fun _ =>
          (body_takes h).bind fun _ => .pure _

theorem itemOver_takes : Takes 1 text (itemOver inner) (itemOver inner') :=
  spaces_takes.skip fun _ => comment_takes.orElse (functionOver_takes h)

end Over

theorem function_takes : Takes 1 text function function :=
  functionOver_statement ▸ functionOver_takes statement_takes

theorem item_takes : Takes 1 text item item :=
  itemOver_statement ▸ itemOver_takes statement_takes

theorem packageClause_takes : Takes 1 text packageClause packageClause :=
  (keyword_takes (by decide)).bind fun _ =>
    (spaces_takes.bind fun _ => packageName_takes.bind fun _ =>
      (expect_takes ';').bind fun _ => .pure _).committed

theorem endOfText_takes : Takes 0 text endOfText endOfText := by
  intro rest _
  cases rest with
  | nil => exact .ok (List.suffix_refl []) (Nat.le_refl 0)
  | cons c tail => exact .soft

/-- A whole text over a reader of the statements in bodies. -/
def unitOver (inner : Reader Draft) : Reader Draft := do
  spaces
  let start ← position
  let package ← optional packageClause
  let items ← many (itemOver inner)
  spaces
  endOfText
  return .node start (.compilationUnit package) items

theorem unitOver_statement : unitOver statement = compilationUnit := rfl

theorem unitOver_takes {n : Nat} {inner inner' : Reader Draft} (h : Takes n text inner inner') :
    Takes 0 text (unitOver inner) (unitOver inner') :=
  spaces_takes.bind fun _ => position_takes.bind fun _ => packageClause_takes.optional.bind fun _ =>
    (itemOver_takes h).many.bind fun _ => spaces_takes.bind fun _ =>
      endOfText_takes.bind fun _ => .pure _

theorem compilationUnit_takes : Takes 0 text compilationUnit compilationUnit :=
  unitOver_statement ▸ unitOver_takes statement_takes

end Units

end ProgramTree.Reader
