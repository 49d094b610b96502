import ProgramTree.Proofs.Grammar.Unambiguous

/-! # Tokens of expressions

A derivation cuts the text that it takes into tokens. The tokens alone decide
what it derives: wherever the same tokens stand, with whatever blanks between
them, the same value is derived. Blanks may therefore be put between any two
tokens, except behind the point of a field, where the name has to follow at
once. -/

namespace ProgramTree.Grammar

set_option autoImplicit false

open Reader

/-- A token with its text. A name may be that of a call target, and a minus that belongs to a
number is in the text of the number. -/
inductive Token
  | name (spelled : List Char)
  | literal (value : Literal) (spelled : List Char)
  | symbol (c : Char)
  | operator (op : BinaryOp)
  deriving DecidableEq

def Token.spelled : Token → List Char
  | name spelled => spelled
  | literal _ spelled => spelled
  | symbol c => [c]
  | operator op => op.symbol.toList

/-- A token at the front of a text, with what has to be true of the text behind it. -/
inductive Lexeme : Token → List Char → List Char → Prop
  | name {spelled text rest : List Char} : Qualified spelled text rest →
      Lexeme (.name spelled) text rest
  | literal {value : Literal} {spelled rest : List Char} :
      LiteralText value (spelled ++ rest) rest →
      Lexeme (.literal value spelled) (spelled ++ rest) rest
  | bracket {c : Char} {rest : List Char} : c ∈ ['(', ')', '[', ']', ',', '!'] →
      Lexeme (.symbol c) (c :: rest) rest
  | point {rest : List Char} : StartsNot isSpace rest → Lexeme (.symbol '.') ('.' :: rest) rest
  | minus {rest : List Char} : StartsNot Char.isDigit rest →
      Lexeme (.symbol '-') ('-' :: rest) rest
  | operator (op : BinaryOp) {rest : List Char} :
      Lexeme (.operator op) (op.symbol.toList ++ rest) rest

/-- The text is made of the tokens, each after any number of blanks, and of what is left behind
the last one. -/
inductive Laid : List Token → List Char → List Char → Prop
  | nil {text : List Char} : Laid [] text text
  | cons {token : Token} {tokens : List Token} {text start mid rest : List Char} :
      AfterBlanks text start → Lexeme token start mid → Laid tokens mid rest →
      Laid (token :: tokens) text rest

namespace Laid

variable {tokens tokens' : List Token} {token : Token} {text mid rest : List Char}

theorem append (h : Laid tokens text mid) (h' : Laid tokens' mid rest) :
    Laid (tokens ++ tokens') text rest := by
  induction h with
  | nil => exact h'
  | cons blanks lexeme _ ih => exact .cons blanks lexeme (ih h')

theorem bracket {c : Char} (hmem : c ∈ ['(', ')', '[', ']', ',', '!']) (h : Symbol [c] text mid)
    (h' : Laid tokens mid rest) : Laid (.symbol c :: tokens) text rest :=
  .cons h (.bracket hmem) h'

theorem of_append (h : Laid (tokens ++ tokens') text rest) :
    ∃ mid, Laid tokens text mid ∧ Laid tokens' mid rest := by
  induction tokens generalizing text with
  | nil => exact ⟨text, .nil, h⟩
  | cons token tokens ih =>
    cases h with
    | cons blanks lexeme h =>
      obtain ⟨mid, hfront, hback⟩ := ih h
      exact ⟨mid, .cons blanks lexeme hfront, hback⟩

theorem of_cons (h : Laid (token :: tokens) text rest) :
    ∃ start mid, AfterBlanks text start ∧ Lexeme token start mid ∧ Laid tokens mid rest := by
  cases h with
  | cons blanks lexeme h => exact ⟨_, _, blanks, lexeme, h⟩

theorem of_symbol {c : Char} (h : Laid (.symbol c :: tokens) text rest) :
    ∃ mid, Symbol [c] text mid ∧ Laid tokens mid rest := by
  obtain ⟨start, mid, blanks, lexeme, h⟩ := h.of_cons
  refine ⟨mid, ?_, h⟩
  cases lexeme with
  | bracket _ => exact blanks
  | point _ => exact blanks
  | minus _ => exact blanks

theorem of_name {spelled : List Char} (h : Laid (.name spelled :: tokens) text rest) :
    ∃ start mid, AfterBlanks text start ∧ Qualified spelled start mid ∧ Laid tokens mid rest := by
  obtain ⟨start, mid, blanks, lexeme, h⟩ := h.of_cons
  cases lexeme with
  | name qualified => exact ⟨start, mid, blanks, qualified, h⟩

end Laid

section Lexemes

variable {token : Token} {text mid rest : List Char}

theorem afterBlanks_append {blanks : List Char} (h : ∀ c ∈ blanks, isSpace c = true)
    (h' : AfterBlanks text rest) : AfterBlanks (blanks ++ text) rest := by
  obtain ⟨others, hothers, rfl⟩ := h'
  refine ⟨blanks ++ others, fun c hc => ?_, (List.append_assoc _ _ _).symm⟩
  exact (List.mem_append.mp hc).elim (h c) (hothers c)

/-- A qualified name without a colon is an identifier. -/
theorem Qualified.identifier {name : List Char} (h : Qualified name text rest)
    (hname : Name.isIdentifier name = true) : Identifier name text rest := by
  cases h with
  | plain h => exact h
  | inPackage _ _ =>
    have hcolon := isWordChar_of_isIdentifier hname ':' (by simp)
    rw [isWordChar_colon] at hcolon
    cases hcolon

theorem Qualified.text_eq {name : List Char} (h : Qualified name text rest) :
    text = name ++ rest := by
  cases h with
  | plain h => exact h.text_eq
  | inPackage hpackage hname =>
    rw [hpackage.text_eq, hname.text_eq, List.append_assoc, List.cons_append]

theorem Qualified.ends {name : List Char} (h : Qualified name text rest) :
    StartsNot Name.isWordChar rest := by
  cases h with
  | plain h => exact h.ends
  | inPackage _ hname => exact hname.ends

theorem Qualified.before {name rest' : List Char} (h : Qualified name text rest)
    (hends : StartsNot Name.isWordChar rest') : Qualified name (name ++ rest') rest' := by
  cases h with
  | plain h => exact .plain ⟨rfl, h.isIdentifier, hends⟩
  | inPackage hpackage hname =>
    rw [List.append_assoc, List.cons_append]
    exact .inPackage ⟨rfl, hpackage.isIdentifier, startsNot_cons.mpr isWordChar_colon⟩
      ⟨rfl, hname.isIdentifier, hends⟩

theorem LiteralText.exists_spelled {value : Literal} (h : LiteralText value text rest) :
    ∃ spelled, text = spelled ++ rest := by
  cases h with
  | number _ => exact ⟨_, rfl⟩
  | @string cs spelled _ _ =>
    exact ⟨'"' :: (spelled ++ ['"']), by simp⟩
  | word _ _ => exact ⟨_, rfl⟩

theorem LiteralText.before {value : Literal} {spelled rest' : List Char}
    (h : LiteralText value (spelled ++ rest) rest)
    (hends : StartsNot Name.isWordChar rest → StartsNot Name.isWordChar rest') :
    LiteralText value (spelled ++ rest') rest' := by
  generalize htext : spelled ++ rest = text at h
  cases h with
  | number hnumber =>
    obtain rfl := List.append_cancel_right htext
    exact .number hnumber
  | @string cs body _ hquoted =>
    have happend : spelled ++ rest = '"' :: (body ++ ['"']) ++ rest := by simpa using htext
    obtain rfl := List.append_cancel_right happend
    have hstring : LiteralText _ ('"' :: (body ++ '"' :: rest')) rest' := .string hquoted
    simpa using hstring
  | word hmem hword =>
    obtain rfl := List.append_cancel_right htext
    exact .word hmem (hends hword)

theorem LiteralText.length_lt {value : Literal} (h : LiteralText value text rest) :
    rest.length < text.length := by
  cases h with
  | number hnumber =>
    obtain ⟨c, tail, rfl, _⟩ := hnumber.head
    simp only [List.length_append, List.length_cons]
    omega
  | string _ =>
    simp only [List.length_append, List.length_cons]
    omega
  | word hmem _ =>
    simp only [List.mem_cons, Prod.mk.injEq, List.not_mem_nil, or_false] at hmem
    rcases hmem with ⟨_, rfl⟩ | ⟨_, rfl⟩ | ⟨_, rfl⟩ <;> simp <;> omega

theorem Lexeme.text_eq (h : Lexeme token text rest) : text = token.spelled ++ rest := by
  cases h with
  | name qualified => exact qualified.text_eq
  | _ => rfl

theorem Lexeme.length_lt (h : Lexeme token text rest) : rest.length < text.length := by
  cases h with
  | name qualified => exact qualified.length_lt
  | literal literal => exact literal.length_lt
  | operator op =>
    rw [List.length_append]
    have hpos : 0 < op.symbol.toList.length := by cases op <;> decide
    omega
  | _ => exact Nat.lt_succ_self _

/-- What ends a token is seen from the next character, and a blank ends all but a point. -/
theorem Lexeme.before {rest' : List Char} (h : Lexeme token text rest)
    (hrest : rest'.head? = rest.head? ∨ token ≠ .symbol '.' ∧ rest'.head?.any isSpace = true) :
    Lexeme token (token.spelled ++ rest') rest' := by
  have hends : ∀ {test : Char → Bool}, (∀ c, isSpace c = true → test c = false) →
      StartsNot test rest → StartsNot test rest' := by
    intro test htest hstarts
    rcases hrest with hhead | ⟨_, hblank⟩
    · rwa [StartsNot, hhead]
    · cases rest' with
      | nil => rfl
      | cons c tail => exact startsNot_cons.mpr (htest c hblank)
  have hword : StartsNot Name.isWordChar rest → StartsNot Name.isWordChar rest' :=
    hends fun c hc => (isSpace_not_wordChar hc).1
  cases h with
  | name qualified => exact .name (qualified.before (hword qualified.ends))
  | literal literal => exact .literal (literal.before hword)
  | bracket hmem => exact .bracket hmem
  | point hspace =>
    rcases hrest with hhead | ⟨hpoint, _⟩
    · have hstarts : StartsNot isSpace rest' := by rwa [StartsNot, hhead]
      exact .point hstarts
    · exact absurd rfl hpoint
  | minus hdigit =>
    refine .minus (hends (fun c hc => ?_) hdigit)
    have hends' : StartsNot Name.isWordChar [c] := startsNot_cons.mpr (isSpace_not_wordChar hc).1
    exact startsNot_cons.mp (startsNot_digit hends')
  | operator op => exact .operator op

end Lexemes

namespace Derivation

variable {category : Category} {text rest : List Char}

/-- The tokens of a derivation, in the order of its text. -/
def tokens {category : Category} {text rest : List Char} :
    Derivation category text rest → List Token
  | operators _ _ first others => first.tokens ++ others.tokens
  | noOperation => []
  | operation op _ _ rhs others => .operator op :: (rhs.tokens ++ others.tokens)
  | not _ operand => .symbol '!' :: operand.tokens
  | neg _ _ operand => .symbol '-' :: operand.tokens
  | unprefixed e => e.tokens
  | suffixed target others => target.tokens ++ others.tokens
  | noSuffix => []
  | field _ spelled _ others => .symbol '.' :: .name spelled :: others.tokens
  | index _ position _ others => .symbol '[' :: (position.tokens ++ .symbol ']' :: others.tokens)
  | parentheses _ e _ => .symbol '(' :: (e.tokens ++ [.symbol ')'])
  | @literal _ start rest value _ _ => [.literal value (start.take (start.length - rest.length))]
  | name spelled _ _ => [.name spelled]
  | call target _ _ _ args _ => .name target :: .symbol '(' :: (args.tokens ++ [.symbol ')'])
  | noArguments => []
  | arguments first others => first.tokens ++ others.tokens
  | noMore => []
  | more _ next others => .symbol ',' :: (next.tokens ++ others.tokens)

theorem laid (d : Derivation category text rest) : Laid d.tokens text rest := by
  induction d with
  | operators _ _ _ _ ihFirst ihOthers => exact ihFirst.append ihOthers
  | noOperation => exact .nil
  | operation op _ symbol _ _ ihRhs ihOthers =>
    exact .cons symbol (.operator op) (ihRhs.append ihOthers)
  | not symbol _ ih => exact .bracket (by decide) symbol ih
  | neg symbol apart _ ih => exact .cons symbol (.minus apart) ih
  | unprefixed _ ih => exact ih
  | suffixed _ _ ihTarget ihOthers => exact ihTarget.append ihOthers
  | noSuffix => exact .nil
  | field point _ identifier _ ih =>
    have hspace : StartsNot isSpace _ :=
      identifier.skipSpaces_eq (afterBlanks_refl _) ▸ startsNot_skipSpaces _
    exact .cons point (.point hspace) (.cons (afterBlanks_refl _) (.name (.plain identifier)) ih)
  | index opening _ closing _ ihPosition ihOthers =>
    exact .bracket (by decide) opening (ihPosition.append (.bracket (by decide) closing ihOthers))
  | parentheses opening _ closing ih =>
    exact .bracket (by decide) opening (ih.append (.bracket (by decide) closing .nil))
  | @literal text start rest value blanks literal =>
    obtain ⟨spelled, rfl⟩ := literal.exists_spelled
    rw [tokens, List.length_append, Nat.add_sub_cancel, List.take_left]
    exact .cons blanks (.literal literal) .nil
  | name _ blanks identifier => exact .cons blanks (.name (.plain identifier)) .nil
  | call _ blanks qualified opening _ closing ih =>
    exact .cons blanks (.name qualified)
      (.bracket (by decide) opening (ih.append (.bracket (by decide) closing .nil)))
  | noArguments => exact .nil
  | arguments _ _ ihFirst ihOthers => exact ihFirst.append ihOthers
  | noMore => exact .nil
  | more comma _ _ ihNext ihOthers => exact .bracket (by decide) comma (ihNext.append ihOthers)

/-- Wherever the tokens of a derivation stand, what it derives is derived. -/
theorem relaid (d : Derivation category text rest) {text' rest' : List Char}
    (h : Laid d.tokens text' rest') :
    ∃ d' : Derivation category text' rest', d'.value = d.value := by
  induction d generalizing text' rest' with
  | operators low high first others ihFirst ihOthers =>
    obtain ⟨mid, hfirst, hothers⟩ := h.of_append
    obtain ⟨first', hvalue⟩ := ihFirst hfirst
    obtain ⟨others', hvalues⟩ := ihOthers hothers
    exact ⟨.operators low high first' others', by rw [value, value, hvalue, hvalues]⟩
  | noOperation =>
    cases h
    exact ⟨.noOperation, rfl⟩
  | operation op binds symbol rhs others ihRhs ihOthers =>
    obtain ⟨start, mid, blanks, lexeme, h⟩ := h.of_cons
    cases lexeme
    obtain ⟨last, hrhs, hothers⟩ := h.of_append
    obtain ⟨rhs', hvalue⟩ := ihRhs hrhs
    obtain ⟨others', hvalues⟩ := ihOthers hothers
    exact ⟨.operation op binds blanks rhs' others', by simp only [value, hvalue, hvalues]⟩
  | not symbol operand ih =>
    obtain ⟨mid, symbol', h⟩ := h.of_symbol
    obtain ⟨operand', hvalue⟩ := ih h
    exact ⟨.not symbol' operand', by rw [value, value, hvalue]⟩
  | neg symbol apart operand ih =>
    obtain ⟨start, mid, blanks, lexeme, h⟩ := h.of_cons
    cases lexeme with
    | bracket hmem => exact absurd hmem (by decide)
    | minus apart' =>
      obtain ⟨operand', hvalue⟩ := ih h
      exact ⟨.neg blanks apart' operand', by simp only [value, hvalue]⟩
  | unprefixed e ih =>
    obtain ⟨e', hvalue⟩ := ih h
    exact ⟨.unprefixed e', hvalue⟩
  | suffixed target others ihTarget ihOthers =>
    obtain ⟨mid, htarget, hothers⟩ := h.of_append
    obtain ⟨target', hvalue⟩ := ihTarget htarget
    obtain ⟨others', hvalues⟩ := ihOthers hothers
    exact ⟨.suffixed target' others', by rw [value, value, hvalue, hvalues]⟩
  | noSuffix =>
    cases h
    exact ⟨.noSuffix, rfl⟩
  | field point spelled identifier others ih =>
    obtain ⟨start, mid, blanks, lexeme, h⟩ := h.of_cons
    cases lexeme with
    | bracket hmem => exact absurd hmem (by decide)
    | point hspace =>
      obtain ⟨start', last, blanks', qualified, h⟩ := h.of_name
      -- no blank can stand behind the point, so the name follows at once
      obtain rfl := (skipSpaces_of_startsNot hspace).symm.trans (qualified.skipSpaces_eq blanks')
      obtain ⟨others', hvalues⟩ := ih h
      exact ⟨.field blanks spelled (qualified.identifier identifier.isIdentifier) others',
        by simp only [value, hvalues]⟩
  | index opening position closing others ihPosition ihOthers =>
    obtain ⟨mid, opening', h⟩ := h.of_symbol
    obtain ⟨last, hposition, h⟩ := h.of_append
    obtain ⟨mid', closing', hothers⟩ := h.of_symbol
    obtain ⟨position', hvalue⟩ := ihPosition hposition
    obtain ⟨others', hvalues⟩ := ihOthers hothers
    exact ⟨.index opening' position' closing' others', by rw [value, value, hvalue, hvalues]⟩
  | parentheses opening e closing ih =>
    obtain ⟨mid, opening', h⟩ := h.of_symbol
    obtain ⟨last, he, h⟩ := h.of_append
    obtain ⟨mid', closing', h⟩ := h.of_symbol
    cases h
    obtain ⟨e', hvalue⟩ := ih he
    exact ⟨.parentheses opening' e' closing', by rw [value, value, hvalue]⟩
  | literal literalValue blanks literal =>
    obtain ⟨start', mid, blanks', lexeme, h⟩ := h.of_cons
    cases h
    cases lexeme with
    | literal literal' => exact ⟨.literal literalValue blanks' literal', rfl⟩
  | name spelled blanks identifier =>
    obtain ⟨start', mid, blanks', qualified, h⟩ := h.of_name
    cases h
    exact ⟨.name spelled blanks' (qualified.identifier identifier.isIdentifier), rfl⟩
  | call target blanks qualified opening args closing ih =>
    obtain ⟨start', mid, blanks', qualified', h⟩ := h.of_name
    obtain ⟨after, opening', h⟩ := h.of_symbol
    obtain ⟨last, hargs, h⟩ := h.of_append
    obtain ⟨mid', closing', h⟩ := h.of_symbol
    cases h
    obtain ⟨args', hvalue⟩ := ih hargs
    exact ⟨.call target blanks' qualified' opening' args' closing', by rw [value, value, hvalue]⟩
  | noArguments =>
    cases h
    exact ⟨.noArguments, rfl⟩
  | arguments first others ihFirst ihOthers =>
    obtain ⟨mid, hfirst, hothers⟩ := h.of_append
    obtain ⟨first', hvalue⟩ := ihFirst hfirst
    obtain ⟨others', hvalues⟩ := ihOthers hothers
    exact ⟨.arguments first' others', by rw [value, value, hvalue, hvalues]⟩
  | noMore =>
    cases h
    exact ⟨.noMore, rfl⟩
  | more comma next others ihNext ihOthers =>
    obtain ⟨mid, comma', h⟩ := h.of_symbol
    obtain ⟨last, hnext, hothers⟩ := h.of_append
    obtain ⟨next', hvalue⟩ := ihNext hnext
    obtain ⟨others', hvalues⟩ := ihOthers hothers
    exact ⟨.more comma' next' others', by rw [value, value, hvalue, hvalues]⟩

end Derivation

end ProgramTree.Grammar
