import Mathlib.Tactic.IntervalCases
import ProgramTree.Proofs.Grammar.Pieces

/-! # The reader finds every derivation

A text that derives an expression is read as that expression, if what follows
cannot go on with it. A level groups its operators as it meets them, so the
induction says of a derivation what the reader makes of it together with any
operators that come after it. -/

namespace ProgramTree

set_option autoImplicit false

namespace Reader

/-- What may follow a single piece of an expression. -/
structure Edge (rest : List Char) : Prop where
  number : EndsNumber rest
  colon : rest.head? ≠ some ':'
  call : (skipSpaces rest).head? ≠ some '('

/-- What may follow an expression of a level: nothing that a suffix begins with, if the level has
suffixes, and no operator of the level or of a tighter one. -/
structure Stops (level : Nat) (rest : List Char) : Prop where
  edge : Edge rest
  suffix : level ≤ 8 → (skipSpaces rest).head? ≠ some '.' ∧ (skipSpaces rest).head? ≠ some '['
  operator : ∀ op : BinaryOp, level ≤ op.precedence →
    op.symbol.toList.isPrefixOf (skipSpaces rest) = false

section Follow

variable {rest tail : List Char} {c : Char}

theorem isSpace_not_wordChar {c : Char} (h : isSpace c = true) :
    Name.isWordChar c = false ∧ c ≠ '.' ∧ c ≠ ':' := by
  simp only [isSpace, Bool.or_eq_true, beq_iff_eq] at h
  rcases h with ((rfl | rfl) | rfl) | rfl <;> decide

theorem isSpace_of_isWordChar {c : Char} (h : Name.isWordChar c = true) : isSpace c = false := by
  cases hspace : isSpace c with
  | false => rfl
  | true =>
    rw [(isSpace_not_wordChar hspace).1] at h
    cases h

/-- What follows a piece is told by the first character that is no blank. -/
theorem edge_of_skipSpaces (h : skipSpaces rest = c :: tail) (hword : Name.isWordChar c = false)
    (hfraction : c = '.' → StartsNot Char.isDigit tail) (hcolon : c ≠ ':') (hcall : c ≠ '(') :
    Edge rest := by
  have hcallHead : (skipSpaces rest).head? ≠ some '(' := by
    rw [h, List.head?_cons]
    exact fun he => hcall (Option.some.inj he)
  cases rest with
  | nil => cases h
  | cons d rest =>
    cases hd : isSpace d with
    | true =>
      obtain ⟨hdword, hdpoint, hdcolon⟩ := isSpace_not_wordChar hd
      refine ⟨⟨startsNot_cons.mpr hdword, ?_⟩, ?_, hcallHead⟩
      · intro tail heq
        cases heq
        exact absurd rfl hdpoint
      · rw [List.head?_cons]
        exact fun he => hdcolon (Option.some.inj he)
    | false =>
      rw [skipSpaces_of_startsNot (startsNot_cons.mpr hd)] at h
      cases h
      refine ⟨⟨startsNot_cons.mpr hword, ?_⟩, ?_, hcallHead⟩
      · intro tail heq
        cases heq
        exact hfraction rfl
      · rw [List.head?_cons]
        exact fun he => hcolon (Option.some.inj he)

theorem head?_ne_of_skipSpaces {d : Char} (h : skipSpaces rest = c :: tail) (hne : c ≠ d)
    (hd : isSpace d = false) : rest.head? ≠ some d := by
  intro hhead
  obtain ⟨after, rfl⟩ := List.head?_eq_some_iff.mp hhead
  rw [skipSpaces_of_startsNot (startsNot_cons.mpr hd)] at h
  cases h
  exact hne rfl

/-- No expression begins with the sign that makes a longer operator of a shorter one. -/
theorem head?_ne_equals (h : skipSpaces rest = c :: tail) (hc : startsExpression c = true) :
    rest.head? ≠ some '=' := by
  apply head?_ne_of_skipSpaces h
  · rintro rfl
    exact absurd hc (by decide)
  · decide

theorem Stops.mono {level level' : Nat} (h : Stops level rest) (hle : level ≤ level') :
    Stops level' rest :=
  ⟨h.edge, fun hsuffix => h.suffix (Nat.le_trans hle hsuffix),
    fun op hop => h.operator op (Nat.le_trans hle hop)⟩

theorem stops_nil (level : Nat) : Stops level [] := by
  refine ⟨⟨⟨rfl, ?_⟩, by simp, by simp⟩, by simp, ?_⟩
  · intro tail heq
    cases heq
  · intro op _
    cases op <;> rfl

/-- The characters that end an expression wherever they stand. -/
def closesExpression (c : Char) : Bool :=
  c == ')' || c == ']' || c == ',' || c == ';'

theorem isSpace_of_closesExpression {c : Char} (h : closesExpression c = true) :
    isSpace c = false := by
  simp only [closesExpression, Bool.or_eq_true, beq_iff_eq] at h
  rcases h with ((rfl | rfl) | rfl) | rfl <;> decide

theorem stops_of_closing (h : skipSpaces rest = c :: tail) (hc : closesExpression c = true)
    (level : Nat) : Stops level rest := by
  simp only [closesExpression, Bool.or_eq_true, beq_iff_eq] at hc
  rcases hc with ((rfl | rfl) | rfl) | rfl <;>
  · refine ⟨edge_of_skipSpaces h (by decide) (fun he => absurd he (by decide)) (by decide)
      (by decide), ?_, ?_⟩
    · simp [h]
    · intro op _
      rw [h]
      cases op <;> rfl

/-- The head of an operator ends the operands of tighter levels. -/
theorem stops_of_operator {op : BinaryOp} {after : List Char}
    (h : skipSpaces rest = op.symbol.toList ++ after) : Stops (op.precedence + 1) rest := by
  have hedge : Edge rest := by
    cases op <;>
      exact edge_of_skipSpaces h (by decide) (fun he => absurd he (by decide)) (by decide)
        (by decide)
  refine ⟨hedge, ?_, ?_⟩
  · rw [h]
    cases op <;> simp [BinaryOp.symbol]
  · intro op' hop
    rw [h]
    cases op <;> cases op' <;> first | rfl | exact absurd hop (by decide)

theorem stops_of_suffix (h : skipSpaces rest = c :: tail) (hc : c = '.' ∨ c = '[')
    (hdigit : StartsNot Char.isDigit tail ∨ c = '[') : Stops 9 rest := by
  have hedge : Edge rest := by
    apply edge_of_skipSpaces h
    · rcases hc with rfl | rfl <;> decide
    · rintro rfl
      exact hdigit.resolve_right (by decide)
    · rcases hc with rfl | rfl <;> decide
    · rcases hc with rfl | rfl <;> decide
  refine ⟨hedge, fun h => absurd h (by decide), fun op hop => ?_⟩
  cases op <;> exact absurd hop (by decide)

end Follow

section Layers

/-- The reader of expressions that is used inside of an expression. -/
def nested (text : List Char) : Reader Expression :=
  below text fun rest _ => expression rest

variable (inner : Reader Expression)

def operatorsAt (level : Nat) : List BinaryOp :=
  (levels[level - 1]?).getD []

/-- The reader of a level, which may begin with blanks. -/
def readAt : Nat → Reader Expression
  | 8 => fun text => suffixed inner (skipSpaces text)
  | 9 => fun text => primary inner (skipSpaces text)
  | n => (levels.drop (n - 1)).foldr level (operand inner)

/-- An operator of a level and its right operand. -/
def operation (n : Nat) : Reader (BinaryOp × Expression) := do
  let op ← operator (operatorsAt n)
  let rhs ← committed (readAt inner (n + 1))
  return (op, rhs)

def suffix : Reader Suffix :=
  orElse fieldSuffix (indexSuffix inner)

/-- What a level goes on with after an expression: how it completes the expression, and what it
leaves. -/
inductive Continues : Nat → List Char → (Expression → Expression) → List Char → Prop
  | piece {rest : List Char} : Continues 9 rest (fun e => e) rest
  | suffixes {rest final : List Char} {more : List Suffix} :
      many (suffix inner) rest = .ok more final →
      Continues 8 rest (fun e => more.foldl Suffix.apply e) final
  | operand {rest : List Char} : Continues 7 rest (fun e => e) rest
  | operations {n : Nat} {rest final : List Char} {more : List (BinaryOp × Expression)} :
      1 ≤ n → n ≤ 6 → many (operation inner n) rest = .ok more final →
      Continues n rest (fun e => more.foldl (fun lhs (op, rhs) => .binary op lhs rhs) e) final

variable {inner} {text rest mid final : List Char} {e : Expression}

theorem readAt_operators {n : Nat} (h : 1 ≤ n) (h' : n ≤ 6) :
    readAt inner n = level (operatorsAt n) (readAt inner (n + 1)) := by
  interval_cases n <;> rfl

theorem operator_soft (ops : List BinaryOp)
    (h : ∀ op ∈ ops, op.symbol.toList.isPrefixOf (skipSpaces text) = false) :
    ∃ failure, operator ops text = .soft failure := by
  have hnone : ops.find? (fun op => op.symbol.toList.isPrefixOf (skipSpaces text)) = none := by
    rw [List.find?_eq_none]
    intro op hop
    rw [h op hop]
    exact Bool.false_ne_true
  refine ⟨⟨.unexpected, skipSpaces text⟩, ?_⟩
  simp only [operator, hnone]
  rfl

theorem precedence_of_mem_operatorsAt {n : Nat} {op : BinaryOp} (h : op ∈ operatorsAt n) :
    1 ≤ n → op.precedence = n := by
  intro hn
  by_cases hle : n ≤ 6
  · interval_cases n <;> cases op <;> first | rfl | exact absurd h (by decide)
  · have hnone : levels[n - 1]? = none :=
      List.getElem?_eq_none (Nat.le_sub_one_of_lt (Nat.lt_of_not_le hle))
    rw [operatorsAt, hnone] at h
    cases h

/-- Of two operators that begin alike the longer one is read, so what follows matters. -/
theorem operator_run {op : BinaryOp} {after : List Char}
    (h : skipSpaces text = op.symbol.toList ++ after) (hafter : after.head? ≠ some '=') :
    operator (operatorsAt op.precedence) text = .ok op after := by
  have hequals : List.isPrefixOf ['='] after = false := by
    cases after with
    | nil => rfl
    | cons c tail =>
      have hc : ('=' == c) = false := by
        rw [beq_eq_false_iff_ne]
        rintro rfl
        exact hafter rfl
      rw [List.isPrefixOf, hc]
      rfl
  have hfind : (operatorsAt op.precedence).find?
      (fun op' => op'.symbol.toList.isPrefixOf (op.symbol.toList ++ after)) = some op := by
    cases op <;> simp [operatorsAt, levels, BinaryOp.precedence, BinaryOp.symbol, hequals]
  have hdrop : (op.symbol.toList ++ after).drop op.symbol.length = after := by
    rw [← String.length_toList, List.drop_left]
  simp only [operator, h, hfind, hdrop]

variable (inner) in
theorem suffix_field {name after : List Char} (h : skipSpaces text = '.' :: after)
    (hname : identifier after = .ok name rest) :
    suffix inner text = .ok (.field (String.ofList name)) rest := by
  simp only [suffix, orElse, fieldSuffix, symbol, bind_apply, andThen, symbolOr_of_eq h, committed,
    hname, Outcome.committed, pure_apply]

theorem suffix_index {position : Expression} {after last : List Char}
    (h : skipSpaces text = '[' :: after) (hposition : inner after = .ok position last)
    (hlast : skipSpaces last = ']' :: rest) :
    suffix inner text = .ok (.index position) rest := by
  have hpoint : (skipSpaces text).head? ≠ some '.' := by simp [h]
  obtain ⟨failure, hsoft⟩ := symbolOr_of_ne .unexpected hpoint
  simp only [suffix, orElse, fieldSuffix, indexSuffix, symbol, expect, bind_apply, andThen, hsoft,
    symbolOr_of_eq h, symbolOr_of_eq hlast, committed, hposition, Outcome.committed, pure_apply]

variable (inner) in
theorem suffix_soft (hpoint : (skipSpaces text).head? ≠ some '.')
    (hbracket : (skipSpaces text).head? ≠ some '[') :
    ∃ failure, suffix inner text = .soft failure := by
  obtain ⟨_, hfield⟩ := symbolOr_of_ne .unexpected hpoint
  obtain ⟨failure, hindex⟩ := symbolOr_of_ne .unexpected hbracket
  refine ⟨failure, ?_⟩
  simp only [suffix, orElse, fieldSuffix, indexSuffix, symbol, bind_apply, andThen, hfield, hindex]

theorem operation_run {op : BinaryOp} {rhs : Expression} {after : List Char}
    (h : skipSpaces text = op.symbol.toList ++ after) (hafter : after.head? ≠ some '=')
    (hrhs : readAt inner (op.precedence + 1) after = .ok rhs rest) :
    operation inner op.precedence text = .ok (op, rhs) rest := by
  simp only [operation, bind_apply, andThen, operator_run h hafter, committed, hrhs,
    Outcome.committed, pure_apply]

/-- Where nothing goes on with a level, the level leaves an expression as it is. -/
theorem Stops.continues {n : Nat} (h : Stops n rest) (hlow : 1 ≤ n) (hhigh : n ≤ 9) :
    Continues inner n rest (fun e => e) rest := by
  by_cases hoperators : n ≤ 6
  · obtain ⟨failure, hsoft⟩ := operator_soft (operatorsAt n) fun op hop =>
      h.operator op (precedence_of_mem_operatorsAt hop hlow).ge
    have hnone : operation inner n rest = .soft failure := by
      simp only [operation, bind_apply, andThen, hsoft]
    exact .operations hlow hoperators (many_of_soft hnone)
  · obtain rfl | rfl | rfl : n = 7 ∨ n = 8 ∨ n = 9 := by omega
    · exact .operand
    · obtain ⟨hpoint, hbracket⟩ := h.suffix (Nat.le_refl _)
      obtain ⟨failure, hsoft⟩ := suffix_soft inner hpoint hbracket
      exact .suffixes (many_of_soft hsoft)
    · exact .piece

theorem suffixed_of_primary_soft {failure : Failure} (h : primary inner text = .soft failure) :
    suffixed inner text = .soft failure := by
  simp only [suffixed, bind_apply, andThen, h]

variable (inner) in
/-- No suffixed expression begins with a prefix, unless it is the sign of a number. -/
theorem suffixed_soft (h : StartsNot Name.isWordChar text) (hparenthesis : text.head? ≠ some '(')
    (hquote : text.head? ≠ some '"') (hnumber : number? text = none) :
    ∃ failure, suffixed inner text = .soft failure := by
  obtain ⟨failure, hsoft⟩ := primary_soft inner h hparenthesis hquote hnumber
  exact ⟨failure, suffixed_of_primary_soft hsoft⟩

theorem operand_of_suffixed (h : suffixed inner (skipSpaces text) = .ok e rest) :
    operand inner text = .ok e rest := by
  rw [operand]
  split
  · rename_i after heq
    have hstart : StartsNot Name.isWordChar ('!' :: after) := startsNot_cons.mpr rfl
    obtain ⟨failure, hsoft⟩ := suffixed_soft inner hstart (by simp) (by simp)
      (number?_eq_none (startsNot_digit hstart) (by simp))
    rw [heq, hsoft] at h
    cases h
  · rename_i after heq
    rw [heq] at h
    simp only [h]
  · simp only [h]

theorem operand_not {after : List Char} (h : skipSpaces text = '!' :: after)
    (hoperand : operand inner after = .ok e rest) :
    operand inner text = .ok (.unary .not e) rest := by
  rw [operand]
  split
  · rename_i after' heq
    rw [h] at heq
    cases heq
    simp only [hoperand, Outcome.committed, Outcome.map]
  · rename_i after' heq
    rw [h] at heq
    cases heq
  · rename_i hnot _
    exact absurd h (hnot after)

theorem operand_neg {after : List Char} (h : skipSpaces text = '-' :: after)
    (hdigit : StartsNot Char.isDigit after) (hoperand : operand inner after = .ok e rest) :
    operand inner text = .ok (.unary .neg e) rest := by
  have hstart : StartsNot Name.isWordChar ('-' :: after) := startsNot_cons.mpr rfl
  obtain ⟨failure, hsoft⟩ := suffixed_soft inner hstart (by simp) (by simp)
    (number?_minus_eq_none hdigit)
  rw [operand]
  split
  · rename_i after' heq
    rw [h] at heq
    cases heq
  · rename_i after' heq
    rw [h] at heq
    cases heq
    simp only [hsoft, hoperand, Outcome.committed, Outcome.map]
  · rename_i hneg
    exact absurd h (hneg after)

/-- A level reads an expression of the next one, and goes on. -/
theorem readAt_step {n : Nat} {g : Expression → Expression} (hlow : 1 ≤ n) (hhigh : n ≤ 8)
    (hnext : readAt inner (n + 1) text = .ok e mid) (hmore : Continues inner n mid g final) :
    readAt inner n text = .ok (g e) final := by
  cases hmore with
  | piece => omega
  | suffixes hmany =>
    have hprimary : primary inner (skipSpaces text) = .ok e mid := hnext
    have hsuffixes : many (orElse fieldSuffix (indexSuffix inner)) mid = _ := hmany
    show suffixed inner (skipSpaces text) = _
    rw [suffixed, bind_apply, andThen, hprimary]
    simp only [bind_apply (many _), andThen, hsuffixes, pure_apply]
  | operand => exact operand_of_suffixed hnext
  | operations _ hle hmany =>
    have hoperations : many (do
        let op ← operator (operatorsAt n)
        let rhs ← committed (readAt inner (n + 1))
        return (op, rhs)) mid = _ := hmany
    rw [readAt_operators hlow hle, level, bind_apply, andThen, hnext]
    simp only [bind_apply (many _), andThen, hoperations, pure_apply]

end Layers

section Nested

variable {whole text rest mid : List Char} {e : Expression}

theorem expression_eq (text : List Char) : expression text = readAt (nested text) 1 text := by
  rw [expression]
  rfl

theorem nested_of_lt (h : text.length < whole.length) : nested whole text = expression text := by
  rw [nested, below, dif_pos h]

theorem levels_soft (ops : List (List BinaryOp)) {base : Reader Expression} {failure : Failure}
    (h : base text = .soft failure) : ops.foldr level base text = .soft failure := by
  induction ops with
  | nil => exact h
  | cons first ops ih => rw [List.foldr_cons, level, bind_apply, andThen, ih]

/-- Without a prefix an expression begins with what is written in one piece. -/
theorem expression_soft_of_primary (hnot : (skipSpaces text).head? ≠ some '!')
    (hneg : (skipSpaces text).head? ≠ some '-')
    (h : ∃ failure, primary (nested text) (skipSpaces text) = .soft failure) :
    ∃ failure, expression text = .soft failure := by
  obtain ⟨failure, hprimary⟩ := h
  have hsuffixed := suffixed_of_primary_soft hprimary
  have hoperand : ∃ failure, operand (nested text) text = .soft failure := by
    rw [operand]
    split
    · rename_i after heq
      rw [heq] at hnot
      exact absurd rfl hnot
    · rename_i after heq
      rw [heq] at hneg
      exact absurd rfl hneg
    · simp only [hsuffixed]
      exact ⟨_, rfl⟩
  obtain ⟨failure, hsoft⟩ := hoperand
  rw [expression_eq]
  exact ⟨failure, levels_soft levels hsoft⟩

theorem expression_soft (h : StartsNot startsExpression (skipSpaces text)) :
    ∃ failure, expression text = .soft failure := by
  have hword : StartsNot Name.isWordChar (skipSpaces text) := h.mono fun c hc => by
    simp [startsExpression, hc]
  have hhead : ∀ {c : Char}, startsExpression c = true → (skipSpaces text).head? ≠ some c := by
    intro c hc he
    unfold StartsNot at h
    rw [he, Option.any_some, hc] at h
    cases h
  exact expression_soft_of_primary (hhead (by decide)) (hhead (by decide))
    (primary_soft _ hword (hhead (by decide)) (hhead (by decide))
      (number?_eq_none (startsNot_digit hword) (hhead (by decide))))

end Nested

section Pieces

variable {inner : Reader Expression} {text rest mid : List Char} {e : Expression}

theorem primary_wordLiteral {value : Literal} (h : wordLiteral? (word text) = some value) :
    primary inner text = .ok (.literal value) (afterWord text) := by
  obtain ⟨c, tail, hword, hc⟩ := wordLiteral?_head h
  obtain ⟨after, rfl, _⟩ := exists_of_word hword
  rw [primary_word inner hc, h]

theorem primary_identifier {name : List Char} (h : identifier text = .ok name rest) :
    primary inner text = callOrName inner text := by
  obtain ⟨c, tail, rfl, hc⟩ := identifier_head h
  have hid : Name.isIdentifier (word (c :: tail)) = true := by
    rw [identifier_eq] at h
    split at h
    · assumption
    · cases h
  rw [primary_word inner hc, wordLiteral?_identifier hid]

theorem primary_name {name : List Char} (h : identifier text = .ok name rest)
    (hcolon : rest.head? ≠ some ':') (hcall : (skipSpaces rest).head? ≠ some '(') :
    primary inner text = .ok (.name (String.ofList name)) rest := by
  obtain ⟨failure, hsoft⟩ := symbolOr_of_ne .unexpected hcall
  have hqualifier : qualifier rest = unexpected rest := by
    unfold qualifier
    split
    · exact absurd rfl hcolon
    · rfl
  rw [primary_identifier h]
  simp only [callOrName, orElse, call, qualified, bind_apply, andThen, h, optional, hqualifier,
    unexpected, symbol, pure_apply, hsoft]

theorem primary_call {target after last : List Char} {args : List Expression}
    (htarget : qualified text = .ok target mid) (hmid : skipSpaces mid = '(' :: after)
    (hargs : separated comma inner after = .ok args last) (hlast : skipSpaces last = ')' :: rest) :
    primary inner text = .ok (.call (String.ofList target) args) rest := by
  have hidentifier : ∃ name rest, identifier text = .ok name rest := by
    cases hfirst : identifier text with
    | ok name rest => exact ⟨name, rest, rfl⟩
    | soft failure => simp [qualified, bind_apply, andThen, hfirst] at htarget
    | hard failure => simp [qualified, bind_apply, andThen, hfirst] at htarget
  obtain ⟨_, _, hidentifier⟩ := hidentifier
  rw [primary_identifier hidentifier]
  simp only [callOrName, orElse, call, bind_apply, andThen, htarget, symbol, expect,
    symbolOr_of_eq hmid, hargs, committed, symbolOr_of_eq hlast, Outcome.committed, pure_apply]

theorem primary_parentheses {last : List Char} (h : inner text = .ok e last)
    (hlast : skipSpaces last = ')' :: rest) : primary inner ('(' :: text) = .ok e rest := by
  simp only [primary, Reader.parenthesized, bind_apply, andThen, committed, h, expect,
    symbolOr_of_eq hlast, Outcome.committed, pure_apply]

theorem primary_string {value : List Char} (h : stringBody text = .ok value rest) :
    primary inner ('"' :: text) = .ok (.literal (.string (String.ofList value))) rest := by
  simp only [primary, bind_apply stringBody, andThen, h, pure_apply]

end Pieces

section Arguments

variable {α : Type} {item : Reader α} {text rest mid : List Char} {a : α}

theorem many_argument_soft (h : (skipSpaces rest).head? ≠ some ',') :
    many (do comma; item) rest = .ok [] rest := by
  obtain ⟨failure, hsoft⟩ := symbolOr_of_ne .unexpected h
  have hitem : (do comma; item : Reader α) rest = .soft failure := by
    simp only [bind_apply, andThen, comma, symbol, hsoft]
  exact many_of_soft hitem

theorem argument_run (h : skipSpaces mid = ',' :: text) (ha : item text = .ok a rest) :
    (do comma; item : Reader α) mid = .ok a rest := by
  simp only [bind_apply, andThen, comma, symbol, symbolOr_of_eq h, ha]

theorem separated_of_ok {as : List α} {final : List Char} (h : item text = .ok a rest)
    (hmany : many (do comma; item) rest = .ok as final) :
    separated comma item text = .ok (a :: as) final := by
  simp only [separated, h, bind_apply (many _), andThen, hmany, pure_apply]

theorem separated_of_soft {failure : Failure} (h : item text = .soft failure) :
    separated comma item text = .ok [] text := by
  simp only [separated, h]

end Arguments

end Reader

open Reader

/-- What the reader makes of a text that derives a phrase, inside of any text that is long
enough. -/
def Phrase.Found : Phrase → List Char → List Char → Prop
  | expression n e, text, rest =>
    ∀ whole : List Char, text.length ≤ whole.length → Stops (n + 1) rest →
      ∀ g final, Continues (nested whole) n rest g final →
        readAt (nested whole) n text = .ok (g e) final
  | arguments es, text, rest =>
    ∀ whole : List Char, text.length < whole.length → (skipSpaces rest).head? = some ')' →
      separated comma (nested whole) text = .ok es rest ∧
      (es ≠ [] → ∀ mid, skipSpaces mid = ',' :: text →
        many (do comma; nested whole) mid = .ok es rest)

namespace Phrase

variable {text rest mid : List Char} {e : Expression}

theorem Found.nested (h : (expression 1 e).Found text rest) (hstops : Stops 1 rest)
    (whole : List Char) (hlength : text.length < whole.length) :
    Reader.nested whole text = .ok e rest := by
  rw [nested_of_lt hlength, expression_eq]
  exact h text (Nat.le_refl _) (hstops.mono (by decide)) _ _
    (hstops.continues (by decide) (by decide))

/-- Nothing goes on with a single piece. -/
theorem found_of_primary (h : ∀ whole : List Char, text.length ≤ whole.length → Edge rest →
    primary (Reader.nested whole) (skipSpaces text) = .ok e rest) :
    (expression 9 e).Found text rest := by
  intro whole hlength hstops g final hmore
  cases hmore with
  | piece => exact h whole hlength hstops.edge
  | operations _ hle _ => omega

/-- Nothing goes on with what has a prefix. -/
theorem found_of_operand (h : ∀ whole : List Char, text.length ≤ whole.length → Stops 8 rest →
    operand (Reader.nested whole) text = .ok e rest) : (expression 7 e).Found text rest := by
  intro whole hlength hstops g final hmore
  cases hmore with
  | operand => exact h whole hlength hstops
  | operations _ hle _ => omega

/-- A suffix is the first of those that go on with what stands before it. -/
theorem found_of_suffix {target : Expression} {s : Suffix}
    (htarget : (expression 8 target).Found text mid) (hstops : Stops 9 mid)
    (hlt : rest.length < mid.length)
    (hsuffix : ∀ whole : List Char, text.length ≤ whole.length →
      suffix (Reader.nested whole) mid = .ok s rest) :
    (expression 8 (s.apply target)).Found text rest := by
  intro whole hlength _ g final hmore
  cases hmore with
  | suffixes hmany =>
    have hsuffixes := many_of_ok (hsuffix whole hlength) hlt hmany
    exact htarget whole hlength hstops _ _ (.suffixes hsuffixes)
  | operations _ hle _ => omega

end Phrase

theorem Derives.head {phrase : Phrase} {text rest : List Char} (h : Derives phrase text rest)
    {n : Nat} {e : Expression} (he : phrase = .expression n e) :
    ∃ c tail, skipSpaces text = c :: tail ∧ startsExpression c = true := by
  have hword : ∀ {c : Char}, Name.isWordStart c = true → startsExpression c = true := by
    intro c hc
    simp [startsExpression, isWordChar_of_isWordStart hc]
  induction h generalizing n e with
  | loosen _ _ _ ih => exact ih rfl
  | binary _ _ _ ihl _ => exact ihl rfl
  | not htext _ _ => exact ⟨_, _, htext, by decide⟩
  | neg htext _ _ _ => exact ⟨_, _, htext, by decide⟩
  | field _ _ _ ih => exact ih rfl
  | index _ _ _ _ ih _ => exact ih rfl
  | parentheses htext _ _ _ => exact ⟨_, _, htext, by decide⟩
  | string htext _ => exact ⟨_, _, htext, by decide⟩
  | number hnumber =>
    obtain ⟨c, tail, htext, hc⟩ := number?_head hnumber
    refine ⟨c, tail, htext, ?_⟩
    rcases hc with rfl | hc
    · decide
    · simp [startsExpression, isWordChar_of_isDigit hc]
  | @word value text hvalue =>
    cases hw : Reader.word (skipSpaces text) with
    | nil =>
      rw [hw] at hvalue
      cases hvalue
    | cons c tail =>
      obtain ⟨after, htext, hc⟩ := exists_of_word hw
      exact ⟨c, after, htext, by simp [startsExpression, hc]⟩
  | name hname =>
    obtain ⟨c, tail, htext, hc⟩ := identifier_head hname
    exact ⟨c, tail, htext, hword hc⟩
  | call htarget _ _ _ _ =>
    obtain ⟨c, tail, htext, hc⟩ := qualified_head htarget
    exact ⟨c, tail, htext, hword hc⟩
  | noArgument => cases he
  | lastArgument _ _ => cases he
  | argument _ _ _ _ _ => cases he

namespace Reader

theorem Continues.more {inner : Reader Expression} {n : Nat} {rest final : List Char}
    {g : Expression → Expression} (h : Continues inner n rest g final) (hle : n ≤ 6) :
    ∃ more, many (operation inner n) rest = .ok more final ∧
      g = fun e => more.foldl (fun lhs (op, rhs) => .binary op lhs rhs) e := by
  cases h with
  | operations _ _ hmany => exact ⟨_, hmany, rfl⟩
  | _ => omega

theorem precedence_bounds (op : BinaryOp) : 1 ≤ op.precedence ∧ op.precedence ≤ 6 := by
  cases op <;> decide

end Reader

theorem Derives.found {phrase : Phrase} {text rest : List Char} (h : Derives phrase text rest) :
    phrase.Found text rest := by
  induction h with
  | loosen hlow hhigh _ ih =>
    intro whole hlength hstops g final hmore
    have hstops' := hstops.mono (Nat.le_succ _)
    refine readAt_step hlow hhigh ?_ hmore
    exact ih whole hlength hstops' _ _ (hstops.continues (by omega) (by omega))
  | @binary op lhs rhs text mid after rest hlhs hmid hrhs ihl ihr =>
    intro whole hlength hstops g final hmore
    obtain ⟨hlow, hhigh⟩ := precedence_bounds op
    obtain ⟨more, hmany, rfl⟩ := hmore.more hhigh
    have hlhsLength := hlhs.length
    have hrhsLength := hrhs.length
    have hmidLength := congrArg List.length hmid
    have hspaces := length_skipSpaces_le mid
    simp only [Phrase.least, List.length_append] at hlhsLength hrhsLength hmidLength
    obtain ⟨c, tail, hskip, hc⟩ := hrhs.head rfl
    have hafter := head?_ne_equals hskip hc
    have hread := ihr whole (by omega) (hstops.mono (Nat.le_succ _)) _ _
      (hstops.continues (by omega) (by omega))
    have hoperations := many_of_ok (operation_run hmid hafter hread) (by omega) hmany
    exact ihl whole hlength (stops_of_operator hmid) _ _ (.operations hlow hhigh hoperations)
  | not htext hoperand ih =>
    apply Phrase.found_of_operand
    intro whole hlength hstops
    have hafter := length_of_skipSpaces htext
    exact operand_not htext (ih whole (by omega) hstops _ _ .operand)
  | neg htext hdigit hoperand ih =>
    apply Phrase.found_of_operand
    intro whole hlength hstops
    have hafter := length_of_skipSpaces htext
    exact operand_neg htext hdigit (ih whole (by omega) hstops _ _ .operand)
  | @field target name text mid after rest htarget hmid hname ih =>
    have hafter := length_of_skipSpaces hmid
    have hrest := length_of_identifier hname
    obtain ⟨c, tail, rfl, hc⟩ := identifier_head hname
    have hstops : Stops 9 mid := stops_of_suffix hmid (Or.inl rfl)
      (Or.inl (startsNot_cons.mpr (isDigit_of_isWordStart hc)))
    exact Phrase.found_of_suffix ih hstops (by omega)
      fun whole _ => suffix_field (nested whole) hmid hname
  | @index target position text mid after last rest htarget hmid hposition hlast ih ih' =>
    have hafter := length_of_skipSpaces hmid
    have hrest := length_of_skipSpaces hlast
    have htargetLength := htarget.length
    have hpositionLength := hposition.length
    simp only [Phrase.least] at htargetLength hpositionLength
    have hstops : Stops 9 mid := stops_of_suffix hmid (Or.inr rfl) (Or.inr rfl)
    refine Phrase.found_of_suffix (s := .index position) ih hstops (by omega) ?_
    intro whole hlength
    have hread := ih'.nested (stops_of_closing hlast (by decide) 1) whole (by omega)
    exact suffix_index hmid hread hlast
  | parentheses htext _ hlast ih =>
    apply Phrase.found_of_primary
    intro whole hlength _
    have hafter := length_of_skipSpaces htext
    have hread := ih.nested (stops_of_closing hlast (by decide) 1) whole (by omega)
    rw [htext]
    exact primary_parentheses hread hlast
  | string htext hbody =>
    apply Phrase.found_of_primary
    intro whole _ _
    rw [htext]
    exact primary_string hbody
  | number hnumber => exact Phrase.found_of_primary fun _ _ _ => primary_number _ hnumber
  | word hvalue => exact Phrase.found_of_primary fun _ _ _ => primary_wordLiteral hvalue
  | name hname =>
    exact Phrase.found_of_primary fun _ _ hedge => primary_name hname hedge.colon hedge.call
  | @call target text mid after last rest args htarget hmid hargs hlast ih =>
    apply Phrase.found_of_primary
    intro whole hlength _
    have hspaces := length_skipSpaces_le text
    have hmidLength := length_of_qualified htarget
    have hafter := length_of_skipSpaces hmid
    have hread := (ih whole (by omega) (by rw [hlast]; rfl)).1
    exact primary_call htarget hmid hread hlast
  | @noArgument text =>
    intro whole hlength hhead
    have hstart : StartsNot startsExpression (skipSpaces text) := by
      unfold StartsNot
      rw [hhead]
      decide
    obtain ⟨failure, hsoft⟩ := expression_soft hstart
    exact ⟨separated_of_soft ((nested_of_lt hlength).trans hsoft), fun hne => absurd rfl hne⟩
  | @lastArgument e text rest he ih =>
    intro whole hlength hhead
    obtain ⟨c, tail, hskip⟩ : ∃ c tail, skipSpaces rest = c :: tail := by
      cases hskip : skipSpaces rest with
      | nil => rw [hskip] at hhead; cases hhead
      | cons c tail => exact ⟨c, tail, rfl⟩
    rw [hskip] at hhead
    cases hhead
    have hread := ih.nested (stops_of_closing hskip (by decide) 1) whole hlength
    have hmany : many (do comma; nested whole) rest = .ok [] rest :=
      many_argument_soft (by simp [hskip])
    refine ⟨separated_of_ok hread hmany, fun _ mid hmid => ?_⟩
    have hmidLength := length_of_skipSpaces hmid
    have htextLength := he.length
    simp only [Phrase.least] at htextLength
    exact many_of_ok (argument_run hmid hread) (by omega) hmany
  | @argument e e' es text mid after rest he hmid hes ih ih' =>
    intro whole hlength hhead
    have hmidLength := length_of_skipSpaces hmid
    have htextLength := he.length
    simp only [Phrase.least] at htextLength
    have hread := ih.nested (stops_of_closing hmid (by decide) 1) whole hlength
    have hmany := (ih' whole (by omega) hhead).2 (by simp) mid hmid
    refine ⟨separated_of_ok hread hmany, fun _ first hfirst => ?_⟩
    have hfirstLength := length_of_skipSpaces hfirst
    exact many_of_ok (argument_run hfirst hread) (by omega) hmany

theorem Derives.read {e : Expression} {text rest : List Char}
    (h : Derives (.expression 1 e) text rest) (hstops : Stops 1 rest) :
    expression text = .ok e rest := by
  rw [expression_eq]
  exact h.found text (Nat.le_refl _) (hstops.mono (by decide)) _ _
    (hstops.continues (by decide) (by decide))

end ProgramTree
