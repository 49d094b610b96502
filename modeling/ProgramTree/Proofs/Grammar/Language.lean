import ProgramTree.Proofs.Grammar.Number

/-! # The language of expressions

The grammar of expressions, with no order in which its rules are tried.

    expression n     := expression (n + 1) operations n, for n from 1 to 6
    operations n     := (operator of precedence n, expression (n + 1))*
    expression 7     := ("!" | "-") expression 7 | expression 8
    expression 8     := expression 9 suffixes
    suffixes         := ("." identifier | "[" expression 1 "]")*
    expression 9     := "(" expression 1 ")" | literal | identifier
                      | qualified name "(" arguments ")"
    arguments        := (expression 1 ("," expression 1)*)?

A derivation takes a phrase off the front of a text and leaves the rest of it.
It holds every choice that it makes, so a text with two derivations would be
ambiguous. Blanks may stand before every token but the name of a field and the
second name of a call target. Nothing is said of what comes after a token,
except that a word ends where it does not go on, and that a minus with a digit
behind it is no prefix. -/

namespace ProgramTree.Grammar

set_option autoImplicit false

section Tokens

/-- The text is the given one after any number of spaces, tabs and line ends. -/
def AfterBlanks (text start : List Char) : Prop :=
  ∃ blanks : List Char, (∀ c ∈ blanks, Reader.isSpace c = true) ∧ text = blanks ++ start

/-- The text goes on with a symbol, which may have blanks before it. -/
def Symbol (symbol text rest : List Char) : Prop :=
  AfterBlanks text (symbol ++ rest)

/-- An identifier is a longest run of word characters, not led by a digit and not reserved. -/
structure Identifier (name text rest : List Char) : Prop where
  text_eq : text = name ++ rest
  isIdentifier : Name.isIdentifier name = true
  ends : StartsNot Name.isWordChar rest

/-- An identifier, or two of them with nothing but a colon between. -/
inductive Qualified : List Char → List Char → List Char → Prop
  | plain {name text rest : List Char} : Identifier name text rest → Qualified name text rest
  | inPackage {package name text mid rest : List Char} :
      Identifier package text (':' :: mid) → Identifier name mid rest →
      Qualified (package ++ ':' :: name) text rest

structure Digits (digits : List Char) : Prop where
  nonempty : digits ≠ []
  all : ∀ c ∈ digits, c.isDigit = true

/-- How the sign of an exponent may be written. -/
inductive Sign : Bool → List Char → Prop
  | none : Sign false []
  | plus : Sign false ['+']
  | minus : Sign true ['-']

inductive Exponent : Int → List Char → Prop
  | mk {marker : Char} {negative : Bool} {sign digits : List Char} : marker = 'e' ∨ marker = 'E' →
      Sign negative sign → Digits digits →
      Exponent (signedValue negative digits) (marker :: (sign ++ digits))

/-- What makes a number a float: fraction digits, an exponent, or both. -/
inductive FloatTail : List Char → Int → List Char → Prop
  | fraction {digits : List Char} : Digits digits → FloatTail digits 0 ('.' :: digits)
  | exponent {exponent : Int} {text : List Char} :
      Exponent exponent text → FloatTail [] exponent text
  | both {digits : List Char} {exponent : Int} {text : List Char} : Digits digits →
      Exponent exponent text → FloatTail digits exponent ('.' :: (digits ++ text))

/-- The texts of a number. Its minus stands directly before its digits, and an integer has a
64-bit value. -/
inductive Number : Literal → List Char → Prop
  | integer {value : Int64} {negative : Bool} {digits : List Char} : Digits digits →
      value.toInt = signedValue negative digits →
      Number (.int value) (Reader.minus negative ++ digits)
  | float {negative : Bool} {whole fraction tail : List Char} {exponent : Int} : Digits whole →
      FloatTail fraction exponent tail →
      Number (.float (Numeral.value ⟨negative, whole, fraction, exponent⟩))
        (Reader.minus negative ++ (whole ++ tail))

/-- The texts of a character between double quotes. -/
inductive Quoted : Char → List Char → Prop
  | plain {c : Char} : c ≠ '\n' → c ≠ '"' → c ≠ '\\' → Quoted c [c]
  | escaped {c escape : Char} :
      (c, escape) ∈ [('"', '"'), ('\\', '\\'), ('\n', 'n'), ('\t', 't')] →
      Quoted c ['\\', escape]

inductive QuotedAll : List Char → List Char → Prop
  | nil : QuotedAll [] []
  | cons {c : Char} {cs text texts : List Char} : Quoted c text → QuotedAll cs texts →
      QuotedAll (c :: cs) (text ++ texts)

/-- A literal at the front of a text. -/
inductive LiteralText : Literal → List Char → List Char → Prop
  | number {value : Literal} {spelled rest : List Char} : Number value spelled →
      LiteralText value (spelled ++ rest) rest
  | string {cs spelled rest : List Char} : QuotedAll cs spelled →
      LiteralText (.string (String.ofList cs)) ('"' :: (spelled ++ '"' :: rest)) rest
  | word {value : Literal} {word : String} {rest : List Char} :
      (value, word) ∈ [(.boolean true, "true"), (.boolean false, "false"), (.null, "null")] →
      StartsNot Name.isWordChar rest → LiteralText value (word.toList ++ rest) rest

end Tokens

/-- The kinds of phrases. Expressions have levels: the first six are those of the binary
operators, then come prefixes, suffixes and what is written in one piece. -/
inductive Category
  | expression (level : Nat)
  | operations (level : Nat)
  | suffixes
  | arguments
  | moreArguments

/-- What a phrase of a kind stands for. -/
@[reducible] def Category.Meaning : Category → Type
  | expression _ => Expression
  | operations _ => List (BinaryOp × Expression)
  | suffixes => List Reader.Suffix
  | arguments => List Expression
  | moreArguments => List Expression

inductive Derivation : Category → List Char → List Char → Type
  | operators {level : Nat} {text mid rest : List Char} (low : 1 ≤ level) (high : level ≤ 6)
      (first : Derivation (.expression (level + 1)) text mid)
      (others : Derivation (.operations level) mid rest) :
      Derivation (.expression level) text rest
  | noOperation {level : Nat} {text : List Char} : Derivation (.operations level) text text
  | operation {level : Nat} {text after mid rest : List Char} (op : BinaryOp)
      (binds : op.precedence = level) (symbol : Symbol op.symbol.toList text after)
      (rhs : Derivation (.expression (level + 1)) after mid)
      (others : Derivation (.operations level) mid rest) :
      Derivation (.operations level) text rest
  | not {text after rest : List Char} (symbol : Symbol ['!'] text after)
      (operand : Derivation (.expression 7) after rest) : Derivation (.expression 7) text rest
  | neg {text after rest : List Char} (symbol : Symbol ['-'] text after)
      (apart : StartsNot Char.isDigit after) (operand : Derivation (.expression 7) after rest) :
      Derivation (.expression 7) text rest
  | unprefixed {text rest : List Char} (e : Derivation (.expression 8) text rest) :
      Derivation (.expression 7) text rest
  | suffixed {text mid rest : List Char} (target : Derivation (.expression 9) text mid)
      (others : Derivation .suffixes mid rest) : Derivation (.expression 8) text rest
  | noSuffix {text : List Char} : Derivation .suffixes text text
  | field {text after mid rest : List Char} (point : Symbol ['.'] text after)
      (spelled : List Char) (identifier : Identifier spelled after mid)
      (others : Derivation .suffixes mid rest) : Derivation .suffixes text rest
  | index {text after last mid rest : List Char} (opening : Symbol ['['] text after)
      (position : Derivation (.expression 1) after last) (closing : Symbol [']'] last mid)
      (others : Derivation .suffixes mid rest) : Derivation .suffixes text rest
  | parentheses {text after last rest : List Char} (opening : Symbol ['('] text after)
      (e : Derivation (.expression 1) after last) (closing : Symbol [')'] last rest) :
      Derivation (.expression 9) text rest
  | literal {text start rest : List Char} (value : Literal) (blanks : AfterBlanks text start)
      (literal : LiteralText value start rest) : Derivation (.expression 9) text rest
  | name {text start rest : List Char} (spelled : List Char) (blanks : AfterBlanks text start)
      (identifier : Identifier spelled start rest) : Derivation (.expression 9) text rest
  | call {text start mid after last rest : List Char} (target : List Char)
      (blanks : AfterBlanks text start) (qualified : Qualified target start mid)
      (opening : Symbol ['('] mid after) (args : Derivation .arguments after last)
      (closing : Symbol [')'] last rest) : Derivation (.expression 9) text rest
  | noArguments {text : List Char} : Derivation .arguments text text
  | arguments {text mid rest : List Char} (first : Derivation (.expression 1) text mid)
      (others : Derivation .moreArguments mid rest) : Derivation .arguments text rest
  | noMore {text : List Char} : Derivation .moreArguments text text
  | more {text after mid rest : List Char} (comma : Symbol [','] text after)
      (next : Derivation (.expression 1) after mid)
      (others : Derivation .moreArguments mid rest) : Derivation .moreArguments text rest

namespace Derivation

/-- Operators of one level group to the left. -/
def groupLeft (first : Expression) (others : List (BinaryOp × Expression)) : Expression :=
  others.foldl (fun lhs (op, rhs) => .binary op lhs rhs) first

/-- What a derivation derives. -/
def value {category : Category} {text rest : List Char} :
    Derivation category text rest → category.Meaning
  | operators _ _ first others => groupLeft first.value others.value
  | noOperation => []
  | operation op _ _ rhs others => (op, rhs.value) :: others.value
  | not _ operand => .unary .not operand.value
  | neg _ _ operand => .unary .neg operand.value
  | unprefixed e => e.value
  | suffixed target others => others.value.foldl Reader.Suffix.apply target.value
  | noSuffix => []
  | field _ spelled _ others => .field (String.ofList spelled) :: others.value
  | index _ position _ others => .index position.value :: others.value
  | parentheses _ e _ => e.value
  | literal value _ _ => .literal value
  | name spelled _ _ => .name (String.ofList spelled)
  | call target _ _ _ args _ => .call (String.ofList target) args.value
  | noArguments => []
  | arguments first others => first.value :: others.value
  | noMore => []
  | more _ next others => next.value :: others.value

end Derivation

/-- A derivation of a whole text, which may end in blanks. -/
structure Sentence (source : String) where
  rest : List Char
  derivation : Derivation (.expression 1) source.toList rest
  blanks : ∀ c ∈ rest, Reader.isSpace c = true

def Sentence.value {source : String} (sentence : Sentence source) : Expression :=
  sentence.derivation.value

end ProgramTree.Grammar
