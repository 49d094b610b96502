import ProgramTree.Proofs.Grammar.Lexemes

/-! # Derivations of expressions

The grammar of expressions as the readers of its tokens see it: a relation
between a phrase, a text that begins with the phrase, and the rest of the text.
Operators of one level group to the left because the left operand is of the
level and the right one is of the next level. Nothing in the relation says in
which order the rules are tried.

A reader takes as much as it can, so what it reads agrees with a derivation only
where the rest cannot go on with the phrase. -/

namespace ProgramTree

set_option autoImplicit false

/-- An expression at a level of the grammar, or the arguments of a call. The levels up to the
sixth are those of the binary operators; then come prefixes, suffixes and single pieces. -/
inductive Phrase
  | expression (level : Nat) (e : Expression)
  | arguments (es : List Expression)

open Reader in
inductive Derives : Phrase → List Char → List Char → Prop
  | loosen {level : Nat} {e : Expression} {text rest : List Char} : 1 ≤ level → level ≤ 8 →
      Derives (.expression (level + 1) e) text rest → Derives (.expression level e) text rest
  | binary {op : BinaryOp} {lhs rhs : Expression} {text mid after rest : List Char} :
      Derives (.expression op.precedence lhs) text mid →
      skipSpaces mid = op.symbol.toList ++ after →
      Derives (.expression (op.precedence + 1) rhs) after rest →
      Derives (.expression op.precedence (.binary op lhs rhs)) text rest
  | not {operand : Expression} {text after rest : List Char} :
      skipSpaces text = '!' :: after → Derives (.expression 7 operand) after rest →
      Derives (.expression 7 (.unary .not operand)) text rest
  | neg {operand : Expression} {text after rest : List Char} :
      skipSpaces text = '-' :: after → StartsNot Char.isDigit after →
      Derives (.expression 7 operand) after rest →
      Derives (.expression 7 (.unary .neg operand)) text rest
  | field {target : Expression} {name text mid after rest : List Char} :
      Derives (.expression 8 target) text mid → skipSpaces mid = '.' :: after →
      identifier after = .ok name rest →
      Derives (.expression 8 (.field target (String.ofList name))) text rest
  | index {target position : Expression} {text mid after last rest : List Char} :
      Derives (.expression 8 target) text mid → skipSpaces mid = '[' :: after →
      Derives (.expression 1 position) after last → skipSpaces last = ']' :: rest →
      Derives (.expression 8 (.index target position)) text rest
  | parentheses {e : Expression} {text after last rest : List Char} :
      skipSpaces text = '(' :: after → Derives (.expression 1 e) after last →
      skipSpaces last = ')' :: rest → Derives (.expression 9 e) text rest
  | string {value text after rest : List Char} :
      skipSpaces text = '"' :: after → stringBody after = .ok value rest →
      Derives (.expression 9 (.literal (.string (String.ofList value)))) text rest
  | number {value : Literal} {text rest : List Char} :
      number? (skipSpaces text) = some (value, rest) →
      Derives (.expression 9 (.literal value)) text rest
  | word {value : Literal} {text : List Char} :
      wordLiteral? (word (skipSpaces text)) = some value →
      Derives (.expression 9 (.literal value)) text (afterWord (skipSpaces text))
  | name {name text rest : List Char} :
      identifier (skipSpaces text) = .ok name rest →
      Derives (.expression 9 (.name (String.ofList name))) text rest
  | call {target text mid after last rest : List Char} {args : List Expression} :
      qualified (skipSpaces text) = .ok target mid → skipSpaces mid = '(' :: after →
      Derives (.arguments args) after last → skipSpaces last = ')' :: rest →
      Derives (.expression 9 (.call (String.ofList target) args)) text rest
  | noArgument {text : List Char} : Derives (.arguments []) text text
  | lastArgument {e : Expression} {text rest : List Char} :
      Derives (.expression 1 e) text rest → Derives (.arguments [e]) text rest
  | argument {e e' : Expression} {es : List Expression} {text mid after rest : List Char} :
      Derives (.expression 1 e) text mid → skipSpaces mid = ',' :: after →
      Derives (.arguments (e' :: es)) after rest →
      Derives (.arguments (e :: e' :: es)) text rest

namespace Reader

section Lengths

variable {text rest : List Char}

theorem length_dropWhile_lt {test : Char → Bool} (h : text.takeWhile test ≠ []) :
    (text.dropWhile test).length < text.length := by
  have hlength := congrArg List.length (List.takeWhile_append_dropWhile (p := test) (l := text))
  rw [List.length_append] at hlength
  have hpos := List.length_pos_iff.mpr h
  omega

theorem length_of_identifier {name : List Char} (h : identifier text = .ok name rest) :
    rest.length < text.length :=
  (Grammar.identifier_eq_ok.mp h).length_lt

theorem length_of_qualified {name : List Char} (h : qualified text = .ok name rest) :
    rest.length < text.length :=
  (Grammar.qualified_of_read h).length_lt

theorem length_of_stringBody {value : List Char} (h : stringBody text = .ok value rest) :
    rest.length < text.length := by
  obtain ⟨spelled, _, rfl⟩ := Grammar.quotedAll_of_read h
  rw [List.length_append, List.length_cons]
  omega

theorem length_of_number? {value : Literal} (h : number? text = some (value, rest)) :
    rest.length < text.length := by
  obtain ⟨spelled, hspelled, rfl⟩ := Grammar.number_of_read h
  obtain ⟨c, tail, rfl, _⟩ := hspelled.head
  rw [List.length_append, List.length_cons]
  omega

theorem length_of_wordLiteral? {value : Literal} (h : wordLiteral? (word text) = some value) :
    (afterWord text).length < text.length := by
  refine length_dropWhile_lt fun hnil => ?_
  rw [word, hnil] at h
  cases h

end Lengths

end Reader

/-- The number of characters that a phrase has at least. -/
def Phrase.least : Phrase → Nat
  | expression .. => 1
  | arguments _ => 0

open Reader in
theorem Derives.length {phrase : Phrase} {text rest : List Char} (h : Derives phrase text rest) :
    rest.length + phrase.least ≤ text.length := by
  have hskip : ∀ {c : Char} {text rest : List Char}, skipSpaces text = c :: rest →
      rest.length < text.length := length_of_skipSpaces
  have hle := length_skipSpaces_le
  induction h with
  | loosen _ _ _ ih => exact ih
  | @binary op lhs rhs text mid after rest _ hmid _ ihl ihr =>
    have hlength := congrArg List.length hmid
    have hspaces := hle mid
    simp only [Phrase.least, List.length_append] at *
    omega
  | not htext _ ih =>
    have hlength := hskip htext
    simp only [Phrase.least] at *
    omega
  | neg htext _ _ ih =>
    have hlength := hskip htext
    simp only [Phrase.least] at *
    omega
  | field _ hmid hname ih =>
    have hlength := hskip hmid
    have hrest := length_of_identifier hname
    simp only [Phrase.least] at *
    omega
  | index _ hmid _ hlast ih ih' =>
    have hlength := hskip hmid
    have hrest := hskip hlast
    simp only [Phrase.least] at *
    omega
  | parentheses htext _ hlast ih =>
    have hlength := hskip htext
    have hrest := hskip hlast
    simp only [Phrase.least] at *
    omega
  | string htext hbody =>
    have hlength := hskip htext
    have hrest := length_of_stringBody hbody
    simp only [Phrase.least]
    omega
  | @number value text rest hnumber =>
    have hspaces := hle text
    have hrest := length_of_number? hnumber
    simp only [Phrase.least]
    omega
  | @word value text hword =>
    have hspaces := hle text
    have hrest := length_of_wordLiteral? hword
    simp only [Phrase.least]
    omega
  | @name name text rest hname =>
    have hspaces := hle text
    have hrest := length_of_identifier hname
    simp only [Phrase.least]
    omega
  | @call target text mid after last rest args htarget hmid _ hlast ih =>
    have hspaces := hle text
    have hlength := length_of_qualified htarget
    have hafter := hskip hmid
    have hrest := hskip hlast
    simp only [Phrase.least] at *
    omega
  | noArgument => exact Nat.le_refl _
  | lastArgument _ ih =>
    simp only [Phrase.least] at *
    omega
  | argument _ hmid _ ih ih' =>
    have hafter := hskip hmid
    simp only [Phrase.least] at *
    omega

end ProgramTree
