import Mathlib.Logic.Function.Iterate
import ProgramTree.Proofs.Grammar.Taken
import ProgramTree.Source.Build

/-! # Readers without guards

The readers are guarded so that they end whatever they are put together from: a
repetition stops where an item takes nothing, and nested expressions and
statements are read from shorter texts only. Here the guards are left out. What
remains asks for itself at places of a lower rank only, where the rank is made
of the characters that are left and of the tier of the grammar. So it agrees
with the guarded reader once it is unfolded often enough, and what it is
unfolded down to is never reached. -/

namespace ProgramTree

set_option autoImplicit false

/-- A recursive definition that asks for itself at places of a lower rank only, and gives the
result at a place if it is given the result at those. -/
def Descends {P β : Type} (rank : P → Nat) (step : (P → β) → P → β) (result : P → β) : Prop :=
  ∀ (recur : P → β) (p : P), (∀ q, rank q < rank p → recur q = result q) →
    step recur p = result p

/-- Unfolded more often than the rank says, it gives the result over any bottom. -/
theorem Descends.iterate {P β : Type} {rank : P → Nat} {step : (P → β) → P → β} {result : P → β}
    (h : Descends rank step result) (bottom : P → β) {n : Nat} {p : P} (hrank : rank p < n) :
    step^[n] bottom p = result p := by
  induction n generalizing p with
  | zero => exact absurd hrank (Nat.not_lt_zero _)
  | succ n ih =>
    rw [Function.iterate_succ_apply']
    exact h _ p fun q hq => ih (Nat.lt_of_lt_of_le hq (Nat.le_of_lt_succ hrank))

namespace Reader

section Repetition

variable {α : Type} {item : Reader α} {text rest : List Char} {as : List α}

/-- What is left is an end of the text. -/
def Leaves (item : Reader α) : Prop :=
  ∀ ⦃text a rest⦄, item text = .ok a rest → rest <:+ text

/-- At least one character is taken off the front of the text. -/
def Consumes (item : Reader α) : Prop :=
  ∀ ⦃text a rest⦄, item text = .ok a rest → rest <:+ text ∧ rest.length < text.length

theorem Takes.leaves {n : Nat} (h : ∀ text, Takes n text item item) : Leaves item := by
  intro text a rest hitem
  have htakes := h text text (List.suffix_refl text)
  rw [hitem] at htakes
  exact htakes.of_ok.1

theorem Takes.consumes (h : ∀ text, Takes 1 text item item) : Consumes item := by
  intro text a rest hitem
  have htakes := h text text (List.suffix_refl text)
  rw [hitem] at htakes
  exact htakes.of_ok

/-- The turns of a repetition: one item after another, up to a soft failure, whose text is given
back from where the failed item started. -/
inductive Turns (item : Reader α) : List Char → List α → List Char → Prop
  | stop {text : List Char} {failure : Failure} : item text = .soft failure →
      Turns item text [] text
  | turn {text mid rest : List Char} {a : α} {as : List α} : item text = .ok a mid →
      Turns item mid as rest → Turns item text (a :: as) rest

theorem many_eq_ok_iff (h : Consumes item) :
    many item text = .ok as rest ↔ Turns item text as rest := by
  constructor
  · intro hmany
    fun_induction many item text generalizing as with
    | case1 text a mid hitem _ others final hothers ih =>
      cases hmany
      exact .turn hitem (ih hothers)
    | case2 => cases hmany
    | case3 => cases hmany
    | case4 text a mid hitem hstalled => exact absurd (h hitem).2 hstalled
    | case5 text failure hitem =>
      cases hmany
      exact .stop hitem
    | case6 => cases hmany
  · intro hturns
    induction hturns with
    | stop hitem => exact many_of_soft hitem
    | turn hitem _ ih => exact many_of_ok hitem (h hitem).2 ih

/-- One turn of a repetition that goes on whatever the item has left, and stalls where that is the
whole text. -/
def turn (item : Reader α) (stalled again : Reader (List α)) : Reader (List α) := fun text =>
  match item text with
  | .ok a rest => if rest.length = text.length then stalled text else (again rest).map (a :: ·)
  | .soft _ => .ok [] text
  | .hard failure => .hard failure

/-- Each turn leaves less for the next one, so a repetition never stalls. -/
theorem turn_descends (h : Consumes item) (stalled : Reader (List α)) :
    Descends List.length (turn item stalled) (many item) := by
  intro (again : Reader (List α)) text hagain
  rw [turn, many]
  cases hitem : item text with
  | ok a rest =>
    have hlt := (h hitem).2
    simp only [if_neg hlt.ne, if_pos hlt, hagain rest hlt]
    cases many item rest <;> rfl
  | soft failure => rfl
  | hard failure => rfl

end Repetition

section Tokens

variable {text : List Char}

/-- One pair of brackets of a type name. -/
def bracketPair : Reader (List Char)
  | '[' :: ']' :: rest => .ok ['[', ']'] rest
  | text => unexpected text

theorem bracketPair_takes : Takes 1 text bracketPair bracketPair := by
  intro rest _
  rcases begins_pair_or_not '[' ']' rest with ⟨tail, rfl⟩ | hne
  · exact .ok ((List.suffix_cons ']' tail).trans (List.suffix_cons '[' _)) (by simp)
  · rw [bracketPair.eq_2 _ hne]
    exact .soft

theorem many_bracketPair (text : List Char) : (many bracketPair text).map List.flatten =
    .ok (takeBrackets text).1 (takeBrackets text).2 := by
  fun_induction takeBrackets text with
  | case1 text pairs rest hpairs ih =>
    rw [hpairs] at ih
    have hlt : text.length < ('[' :: ']' :: text).length := by
      rw [List.length_cons, List.length_cons]
      omega
    rw [many, bracketPair]
    simp only [if_pos hlt]
    cases hmany : many bracketPair text with
    | ok others final =>
      rw [hmany] at ih
      cases ih
      rfl
    | soft failure | hard failure =>
      rw [hmany] at ih
      cases ih
  | case2 text hne =>
    rw [many_of_soft (bracketPair.eq_2 _ hne)]
    rfl

/-- The brackets of a type name are read by a repetition. -/
theorem typeName_eq : typeName = do
    let base ← qualified
    let pairs ← many bracketPair
    return base ++ pairs.flatten := by
  refine congrArg (qualified >>= ·) (funext fun base => funext fun text => ?_)
  have hpairs := many_bracketPair text
  cases hmany : many bracketPair text with
  | ok pairs final =>
    rw [hmany] at hpairs
    injection hpairs with hflatten hfinal
    have hread : andThen (many bracketPair) (fun pairs => pure (base ++ pairs.flatten)) text =
        .ok (base ++ pairs.flatten) final := by
      simp only [andThen, hmany, pure_apply]
    rw [hflatten, hfinal] at hread
    exact hread.symm
  | soft failure | hard failure =>
    rw [hmany] at hpairs
    cases hpairs

/-- One character of a string literal as it is meant, or none at the closing quote. -/
def stringChar : Reader (Option Char)
  | [] => .hard ⟨.invalidString, []⟩
  | c :: rest =>
    if c = '"' then .ok none rest
    else if c = '\n' then .hard ⟨.invalidString, rest⟩
    else if c = '\\' then
      match rest with
      | [] => .hard ⟨.invalidString, []⟩
      | escaped :: rest =>
        match escapeMeaning? escaped with
        | some meant => .ok (some meant) rest
        | none => .hard ⟨.invalidString, rest⟩
    else .ok (some c) rest

theorem stringChar_takes : Takes 1 text stringChar stringChar := by
  intro rest _
  unfold stringChar
  split
  · exact .hard
  · rename_i c rest _
    have hsuffix := List.suffix_cons c rest
    repeat' split
    · exact .ok hsuffix (Nat.le_refl _)
    · exact .hard
    · exact .hard
    · exact .ok ((List.suffix_cons _ _).trans hsuffix) (by simp)
    · exact .hard
    · exact .ok hsuffix (Nat.le_refl _)

/-- One turn of the loop over the characters of a string literal. -/
def stringTurn (again : List Char → Outcome (List Char)) (text : List Char) :
    Outcome (List Char) :=
  match stringChar text with
  | .ok none rest => .ok [] rest
  | .ok (some c) rest => (again rest).map (c :: ·)
  | .soft failure => .soft failure
  | .hard failure => .hard failure

theorem stringTurn_stringBody (text : List Char) :
    stringTurn stringBody text = stringBody text := by
  cases text with
  | nil => rfl
  | cons c rest =>
    by_cases hquote : c = '"'
    · subst hquote
      rfl
    by_cases hfeed : c = '\n'
    · subst hfeed
      rfl
    by_cases hbackslash : c = '\\'
    · subst hbackslash
      cases rest with
      | nil => rfl
      | cons escaped rest =>
        rw [stringBody_escape, stringTurn, stringChar.eq_def]
        simp only [if_neg hquote, if_neg hfeed, if_true]
        cases escapeMeaning? escaped <;> rfl
    · rw [stringBody_plain hquote hfeed hbackslash, stringTurn, stringChar.eq_def]
      simp only [if_neg hquote, if_neg hfeed, if_neg hbackslash]

theorem stringTurn_descends : Descends List.length stringTurn stringBody := by
  intro again text hagain
  rw [← stringTurn_stringBody, stringTurn, stringTurn]
  cases hchar : stringChar text with
  | ok found rest =>
    have hlt := (Takes.consumes (fun _ => stringChar_takes) hchar).2
    cases found with
    | none => rfl
    | some c => simp only [hagain rest hlt]
  | soft failure => rfl
  | hard failure => rfl

end Tokens

section Expressions

/-- An operand over readers of what its prefixes stand before. -/
def operandOver (suffixed operand : Reader Expression) : Reader Expression := fun text =>
  match skipSpaces text with
  | '!' :: rest => (operand rest).committed.map (.unary .not)
  | '-' :: rest =>
    orElse suffixed (fun _ => (operand rest).committed.map (.unary .neg)) ('-' :: rest)
  | start => orElse suffixed unexpected start

/-- Behind a prefix the text is shorter, and without one it is not longer. -/
theorem operandOver_eq {inner unprefixed prefixed : Reader Expression} {text : List Char}
    (hunprefixed : ∀ rest, rest.length ≤ text.length → unprefixed rest = suffixed inner rest)
    (hprefixed : ∀ rest, rest.length < text.length → prefixed rest = operand inner rest) :
    operandOver unprefixed prefixed text = operand inner text := by
  have hle := length_skipSpaces_le text
  rcases begins_or_not '!' (skipSpaces text) with ⟨tail, hstart⟩ | hnot
  · simp only [operandOver, hstart, operand_not_eq hstart,
      hprefixed tail (length_of_skipSpaces hstart)]
  rcases begins_or_not '-' (skipSpaces text) with ⟨tail, hstart⟩ | hminus
  · rw [hstart] at hle
    simp only [operandOver, hstart, operand_minus_eq hstart, orElse, hunprefixed _ hle,
      hprefixed tail (length_of_skipSpaces hstart)]
  · have hother : operandOver unprefixed prefixed text =
        orElse unprefixed unexpected (skipSpaces text) := by
      rw [operandOver]
      split
      · rename_i heq
        exact absurd heq (hnot _)
      · rename_i heq
        exact absurd heq (hminus _)
      · rfl
    simp only [hother, operand_eq hnot hminus, orElse, hunprefixed _ hle]

/-- A piece and its suffixes over readers of the piece and of nested expressions. -/
def suffixedOver (primary inner : Reader Expression) : Reader Expression := do
  let target ← primary
  let suffixes ← many (suffix inner)
  return suffixes.foldl Suffix.apply target

end Expressions

/-- A tier of the grammar of expressions, from the loosest operators down to the pieces. -/
inductive Tier
  | operations (n : Fin 6)
  | operand
  | suffixed
  | primary

namespace Tier

/-- The tier of what the operators of a level stand between. -/
def operands (n : Fin 6) : Tier :=
  if h : n.val + 1 < 6 then operations ⟨n + 1, h⟩ else operand

/-- The number of tiers below. -/
def height : Tier → Nat
  | operations n => 8 - n
  | operand => 2
  | suffixed => 1
  | primary => 0

def reader : Tier → Reader Expression
  | operations n => (levels.drop n).foldr level (Reader.operand expression)
  | operand => Reader.operand expression
  | suffixed => Reader.suffixed expression
  | primary => Reader.primary expression

def result (place : Tier × List Char) : Outcome Expression :=
  place.1.reader place.2

/-- First the characters that are left count, then the tier. -/
def rank (place : Tier × List Char) : Nat :=
  9 * place.2.length + place.1.height

/-- What is told of a tier, as a reader. -/
def ask (recur : Tier × List Char → Outcome Expression) (tier : Tier) : Reader Expression :=
  fun rest => recur (tier, rest)

/-- Each tier over the ones below it, with nested expressions read at the loosest tier. -/
def step (recur : Tier × List Char → Outcome Expression) :
    Tier × List Char → Outcome Expression
  | (operations n, text) => level (operatorsAt (n + 1)) (ask recur (operands n)) text
  | (operand, text) => operandOver (ask recur suffixed) (ask recur operand) text
  | (suffixed, text) => suffixedOver (ask recur primary) (ask recur (operations 0)) text
  | (primary, text) => Reader.primary (ask recur (operations 0)) text

theorem reader_operations (n : Fin 6) :
    (operations n).reader = level (operatorsAt (n + 1)) (operands n).reader := by
  obtain ⟨n, hn⟩ := n
  interval_cases n <;> rfl

theorem reader_loosest : (operations 0).reader = expression :=
  expression_eq_layers.symm

theorem height_operands : ∀ n : Fin 6, (operands n).height < (operations n).height := by
  decide

theorem height_le (tier : Tier) : tier.height ≤ 8 := by
  cases tier with
  | operations n => exact Nat.sub_le 8 n
  | operand | suffixed | primary => decide

theorem reader_takes {text : List Char} (tier : Tier) : Takes 1 text tier.reader tier.reader := by
  cases tier with
  | operations n => exact levels_takes expression_takes.nested _
  | operand => exact operand_takes expression_takes.nested
  | suffixed => exact suffixed_takes expression_takes.nested
  | primary => exact primary_takes expression_takes.nested

/-- A tier asks for the tiers below it on the same text, and for any tier on shorter texts. -/
theorem step_descends : Descends rank step result := by
  rintro recur ⟨tier, text⟩ hrecur
  have hsame {lower : Tier} (hheight : lower.height < tier.height) (rest : List Char)
      (hle : rest.length ≤ text.length) : ask recur lower rest = lower.reader rest :=
    hrecur (lower, rest) (by simp only [rank]; omega)
  have hshorter (other : Tier) (rest : List Char) (hlt : rest.length < text.length) :
      ask recur other rest = other.reader rest := by
    have hheight := height_le other
    exact hrecur (other, rest) (by simp only [rank]; omega)
  have hnested : Inside text (ask recur (operations 0)) expression :=
    expression_takes.nested.congr fun rest hlt => by rw [hshorter _ rest hlt, reader_loosest]
  have htext := List.suffix_refl text
  cases tier with
  | operations n =>
    have hoperands := (reader_takes (operands n)).congr (hsame (height_operands n))
    rw [result, reader_operations]
    exact (level_takes _ hoperands text htext).eq
  | operand =>
    exact operandOver_eq (hsame (by decide)) (hshorter operand)
  | suffixed =>
    have hprimary := (reader_takes primary).congr (hsame (by decide))
    exact ((hprimary.bind fun _ => (suffix_takes hnested).many.bind fun _ => .pure _) text htext).eq
  | primary => exact (primary_takes hnested text htext).eq

end Tier

theorem operation_takes {text : List Char} (n : Fin 6) :
    Takes 1 text (operation expression (n + 1)) (operation expression (n + 1)) := by
  have hoperand : readAt expression (n + 1 + 1) = (Tier.operands n).reader := by
    obtain ⟨n, hn⟩ := n
    interval_cases n <;> rfl
  unfold operation
  rw [hoperand]
  exact (operator_takes _).bind fun _ => (Tier.reader_takes _).committed.bind fun _ => .pure _

section Statements

theorem statementLayer_descends : Descends List.length statementLayer statement := by
  intro inner text hinner
  have hnested : Inside text inner statement := statement_takes.nested.congr hinner
  exact (statementLayer_takes hnested text (List.suffix_refl text)).eq.trans
    (congrFun statement_eq_layer text).symm

/-- Over the statements unfolded beyond the length of a text the text is read as it is. -/
theorem unitOver_iterate (bottom : Reader Draft) {text : List Char} {n : Nat}
    (hlength : text.length < n) :
    unitOver (statementLayer^[n] bottom) text = compilationUnit text := by
  have hstatement : Takes 1 text (statementLayer^[n] bottom) statement :=
    statement_takes.congr fun rest hle =>
      statementLayer_descends.iterate bottom (Nat.lt_of_le_of_lt hle hlength)
  rw [← unitOver_statement]
  exact (unitOver_takes hstatement text (List.suffix_refl text)).eq

/-- An expression is read at the loosest tier, unfolded beyond its rank. -/
theorem ask_iterate (bottom : Tier × List Char → Outcome Expression) {text : List Char} {n : Nat}
    (hlength : 9 * (text.length + 1) ≤ n) :
    Tier.ask (Tier.step^[n] bottom) (.operations 0) text = expression text := by
  rw [← Tier.reader_loosest]
  exact Tier.step_descends.iterate bottom (by simp only [Tier.rank, Tier.height]; omega)

end Statements

/-- The items that the grammar reads any number of times, with the separators between them. -/
inductive Repeated : {α : Type} → Reader α → Prop
  | operation (n : Fin 6) : Repeated (operation expression (n + 1))
  | suffix : Repeated (suffix expression)
  | bracketPair : Repeated bracketPair
  | stringChar : Repeated stringChar
  | comma : Repeated comma
  | expression : Repeated expression
  | nextExpression : Repeated (do comma; expression)
  | parameter : Repeated parameter
  | nextParameter : Repeated (do comma; parameter)
  | returnType : Repeated returnType
  | nextReturnType : Repeated (do comma; returnType)
  | statement : Repeated statement
  | elseIfClause : Repeated (elseIfClause statement)
  | elseClause : Repeated (elseClause statement)
  | item : Repeated item

/-- The readers of the grammar. -/
inductive OfGrammar : {α : Type} → Reader α → Prop
  | repeated {α : Type} {item : Reader α} : Repeated item → OfGrammar item
  | many {α : Type} {item : Reader α} : Repeated item → OfGrammar (many item)
  | separated {α : Type} {item : Reader α} : Repeated item → OfGrammar (separated comma item)
  | separatedSome {α : Type} {item : Reader α} : Repeated item →
      OfGrammar (separatedSome comma item)
  | spaces : OfGrammar spaces
  | symbol (c : Char) : OfGrammar (symbol c)
  | expect (c : Char) : OfGrammar (expect c)
  | keyword (word : String) : OfGrammar (keyword word)
  | identifier : OfGrammar identifier
  | qualifier : OfGrammar qualifier
  | qualified : OfGrammar qualified
  | typeName : OfGrammar typeName
  | packageName : OfGrammar packageName
  | commentText : OfGrammar commentText
  | stringBody : OfGrammar stringBody
  | operator (ops : List BinaryOp) : OfGrammar (operator ops)
  | tier (tier : Tier) : OfGrammar tier.reader
  | parenthesized : OfGrammar (parenthesized expression)
  | call : OfGrammar (call expression)
  | callOrName : OfGrammar (callOrName expression)
  | fieldSuffix : OfGrammar fieldSuffix
  | indexSuffix : OfGrammar (indexSuffix expression)
  | condition : OfGrammar condition
  | lastExpression : OfGrammar lastExpression
  | assigned : OfGrammar assigned
  | closeBody : OfGrammar (closeBody statement)
  | body : OfGrammar (body statement)
  | comment : OfGrammar comment
  | block : OfGrammar (block statement)
  | ifStatement : OfGrammar (ifStatement statement)
  | whileLoop : OfGrammar (whileLoop statement)
  | catchKeyword : OfGrammar catchKeyword
  | catchClause : OfGrammar (catchClause statement)
  | tryStatement : OfGrammar (tryStatement statement)
  | breakStatement : OfGrammar (jump "break" .breakStatement)
  | continueStatement : OfGrammar (jump "continue" .continueStatement)
  | returnStatement : OfGrammar returnStatement
  | replyStatement : OfGrammar (valued "reply" .replyStatement)
  | throwStatement : OfGrammar (valued "throw" .throwStatement)
  | variableDefinition : OfGrammar variableDefinition
  | assignmentOrCall : OfGrammar assignmentOrCall
  | functionName : OfGrammar functionName
  | returnTypes : OfGrammar returnTypes
  | function : OfGrammar function
  | packageClause : OfGrammar packageClause
  | endOfText : OfGrammar endOfText
  | compilationUnit : OfGrammar compilationUnit

section Grammar

variable {α : Type} {item : Reader α} {text : List Char}

theorem Repeated.takes (h : Repeated item) : Takes 1 text item item := by
  cases h with
  | operation n => exact operation_takes n
  | suffix => exact suffix_takes expression_takes.nested
  | bracketPair => exact bracketPair_takes
  | stringChar => exact stringChar_takes
  | comma => exact comma_takes
  | expression => exact expression_takes
  | nextExpression => exact comma_takes.bind fun _ => expression_takes
  | parameter => exact parameter_takes
  | nextParameter => exact comma_takes.bind fun _ => parameter_takes
  | returnType => exact returnType_takes
  | nextReturnType => exact comma_takes.bind fun _ => returnType_takes
  | statement => exact statement_takes
  | elseIfClause => exact elseIfClause_takes statement_takes.nested
  | elseClause => exact elseClause_takes statement_takes.nested
  | item => exact item_takes

theorem OfGrammar.takes (h : OfGrammar item) : Takes 0 text item item := by
  cases h with
  | repeated h => exact h.takes.any
  | many h => exact h.takes.many
  | separated h => exact comma_takes.separated h.takes
  | separatedSome h => exact (comma_takes.separatedSome h.takes).any
  | spaces => exact spaces_takes
  | symbol c => exact (symbol_takes c).any
  | expect c => exact (expect_takes c).any
  | keyword word => exact keyword_takes (Nat.zero_le _)
  | identifier => exact identifier_takes.any
  | qualifier => exact qualifier_takes.any
  | qualified => exact qualified_takes.any
  | typeName => exact typeName_takes.any
  | packageName => exact packageName_takes.any
  | commentText => exact commentText_takes.any
  | stringBody => exact stringBody_takes.any
  | operator ops => exact (operator_takes ops).any
  | tier tier => exact tier.reader_takes.any
  | parenthesized => exact (parenthesized_takes expression_takes).any
  | call => exact (call_takes expression_takes.nested).any
  | callOrName => exact (callOrName_takes expression_takes.nested).any
  | fieldSuffix => exact fieldSuffix_takes.any
  | indexSuffix => exact (indexSuffix_takes expression_takes.nested).any
  | condition => exact condition_takes.any
  | lastExpression => exact lastExpression_takes.any
  | assigned => exact assigned_takes.any
  | closeBody => exact (closeBody_takes statement_takes).any
  | body => exact (body_takes statement_takes).any
  | comment => exact comment_takes.any
  | block => exact (block_takes statement_takes.nested).any
  | ifStatement => exact (ifStatement_takes statement_takes.nested).any
  | whileLoop => exact (whileLoop_takes statement_takes.nested).any
  | catchKeyword => exact catchKeyword_takes.any
  | catchClause => exact (catchClause_takes statement_takes.nested).any
  | tryStatement => exact (tryStatement_takes statement_takes.nested).any
  | breakStatement | continueStatement => exact (jump_takes _ (by decide)).any
  | returnStatement => exact returnStatement_takes.any
  | replyStatement | throwStatement => exact (valued_takes _ (by decide)).any
  | variableDefinition => exact variableDefinition_takes.any
  | assignmentOrCall => exact assignmentOrCall_takes.any
  | functionName => exact functionName_takes.any
  | returnTypes => exact returnTypes_takes.any
  | function => exact function_takes.any
  | packageClause => exact packageClause_takes.any
  | endOfText => exact endOfText_takes
  | compilationUnit => exact compilationUnit_takes

/-- What fails softly under a choice or a repetition is given back from where it started. -/
theorem soft_given_back {failure : Failure} (h : item text = .soft failure) :
    optional item text = .ok none text ∧ many item text = .ok [] text ∧
      ∀ separator, separated separator item text = .ok [] text := by
  refine ⟨optional_of_soft h, many_of_soft h, fun separator => ?_⟩
  rw [separated, h]

/-- A run depends on what the reader does with the whole text. -/
theorem run_congr {item' : Reader α} (h : item text = item' text) :
    Reader.run item text = Reader.run item' text := by
  rw [Reader.run, Reader.run, h]

end Grammar

end Reader

open Reader

/-- Every reader of the grammar leaves an end of its text, and every item of a repetition takes a
character; what fails softly is given back. So each recursion of the readers, freed of its guard,
descends by the characters that are left and the tier, a repetition never stalls, and texts
and expressions are read by readers unfolded so many times over an arbitrary bottom. -/
theorem reading_descends :
    (∀ {α : Type} {item : Reader α}, OfGrammar item → Leaves item) ∧
    (∀ {text rest : List Char} {value : Literal}, number? text = some (value, rest) →
      rest <:+ text) ∧
    (∀ {text fraction rest : List Char} {exponent : Int},
      floatTail? text = some (fraction, exponent, rest) → rest <:+ text) ∧
    (∀ {text rest : List Char} {exponent : Int}, exponentPart? text = some (exponent, rest) →
      rest <:+ text) ∧
    (∀ {α : Type} {item : Reader α}, Repeated item → Consumes item) ∧
    (∀ {α : Type} {item : Reader α} {text : List Char} {failure : Failure},
      item text = .soft failure →
        optional item text = .ok none text ∧ many item text = .ok [] text ∧
          ∀ separator, separated separator item text = .ok [] text) ∧
    (typeName = do
      let base ← qualified
      let pairs ← many bracketPair
      return base ++ pairs.flatten) ∧
    (∀ {α : Type} {item : Reader α}, Repeated item → ∀ text as rest,
      many item text = .ok as rest ↔ Turns item text as rest) ∧
    (∀ {α : Type} {item : Reader α}, Repeated item → ∀ stalled,
      Descends List.length (turn item stalled) (many item)) ∧
    Descends List.length stringTurn stringBody ∧
    Descends Tier.rank Tier.step Tier.result ∧
    Descends List.length statementLayer statement ∧
    (∀ (source : String) (bottom : Tier × List Char → Outcome Expression) (n : Nat),
      9 * (source.toList.length + 1) ≤ n → parseExpression source = Reader.run (do
        let e ← Tier.ask (Tier.step^[n] bottom) (.operations 0)
        spaces
        return e) source.toList) ∧
    (∀ (source : String) (bottom : Reader Draft) (n : Nat), source.toList.length < n →
      buildTree source =
        (Reader.run (unitOver (statementLayer^[n] bottom)) source.toList).bind fun draft =>
          draft.toTree source.toList) := by
  have hconsumes {α : Type} {item : Reader α} (h : Repeated item) : Consumes item :=
    Takes.consumes fun _ => h.takes
  refine ⟨fun h => Takes.leaves fun _ => h.takes, suffix_of_number?, suffix_of_floatTail?,
    suffix_of_exponentPart?, hconsumes, soft_given_back, typeName_eq,
    fun h _ _ _ => many_eq_ok_iff (hconsumes h), fun h => turn_descends (hconsumes h),
    stringTurn_descends, Tier.step_descends, statementLayer_descends, ?_, ?_⟩
  · intro source bottom n hn
    rw [parseExpression]
    apply run_congr
    have hread := ask_iterate bottom hn
    change andThen expression _ source.toList = andThen (Tier.ask _ _) _ source.toList
    simp only [andThen, hread]
  · intro source bottom n hn
    rw [buildTree, run_congr (unitOver_iterate bottom hn)]
    cases Reader.run compilationUnit source.toList <;> rfl

/-- Two pairs of brackets are two turns of a repetition, and a name is read by readers unfolded over
a bottom that fails. -/
theorem short_texts_descend :
    ['c'] <:+ "a:b[]c".toList ∧ [' '] <:+ "-1.5e2 ".toList ∧ [' '] <:+ ".5e2 ".toList ∧
      [' '] <:+ "e2 ".toList ∧
      (many bracketPair "[][]c".toList = .ok [['[', ']'], ['[', ']']] ['c'] ∧
        "[]c".toList.length < "[][]c".toList.length) ∧
      optional comma ['c'] = .ok none ['c'] ∧
      parseExpression "c" = Reader.run (do
        let e ← Tier.ask (Tier.step^[18] fun place => .hard ⟨.unexpected, place.2⟩) (.operations 0)
        spaces
        return e) "c".toList ∧
      buildTree "" = (Reader.run (unitOver (statementLayer^[1] unexpected)) "".toList).bind
        fun draft => draft.toTree "".toList := by
  obtain ⟨hleaves, hnumber, htail, hexponent, hconsumes, hsoft, _, hturns, _, _, _, _,
    hexpression, hunit⟩ := reading_descends
  have hpairs : Turns bracketPair "[][]c".toList [['[', ']'], ['[', ']']] ['c'] :=
    .turn rfl (.turn rfl (.stop rfl))
  have hfloat : number? "-1.5e2 ".toList =
      some (.float (Numeral.value ⟨true, ['1'], ['5'], 2⟩), [' ']) := rfl
  have hfraction : floatTail? ".5e2 ".toList = some (['5'], 2, [' ']) := rfl
  have hpower : exponentPart? "e2 ".toList = some (2, [' ']) := rfl
  have hnone : comma ['c'] = .soft ⟨.unexpected, ['c']⟩ := rfl
  refine ⟨hleaves .typeName (a := "a:b[]".toList) rfl, hnumber hfloat, htail hfraction,
    hexponent hpower, ⟨(hturns .bracketPair _ _ _).mpr hpairs, ?_⟩, (hsoft hnone).1, ?_, ?_⟩
  · exact (hconsumes .bracketPair (a := ['[', ']']) rfl).2
  · exact hexpression "c" _ 18 (by decide)
  · exact hunit "" _ 1 (by decide)

end ProgramTree
