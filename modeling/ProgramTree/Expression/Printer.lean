import ProgramTree.Expression.Basic
import ProgramTree.Decimal.Integer
import ProgramTree.Decimal.Shortest

/-! # The text of an expression

Operands are put in parentheses where their own operator binds too loosely.
The operand of a minus is also put in parentheses where it begins with a
number, since a minus that touches a number belongs to the number. -/

namespace ProgramTree

set_option autoImplicit false

/-- Numbers in source text: positional from `0.0001` and below `10 ^ 16`, otherwise
with an exponent part that has no plus sign; of two equally short texts the
larger one. -/
def sourceNumbers : NumberLayout :=
  ⟨.upward, -4, 16, false⟩

namespace Literal

def escape (c : Char) : List Char :=
  if c = '"' then ['\\', '"']
  else if c = '\\' then ['\\', '\\']
  else if c = '\n' then ['\\', 'n']
  else if c = '\t' then ['\\', 't']
  else [c]

def text : Literal → String
  | int value => integerText value.toInt
  | float value => String.ofList (sourceNumbers.text value)
  | string value => "\"" ++ String.ofList (value.toList.flatMap escape) ++ "\""
  | boolean true => "true"
  | boolean false => "false"
  | null => "null"

end Literal

/-- The text, in parentheses if asked for. -/
def parenthesized (needed : Bool) (text : String) : String :=
  if needed then "(" ++ text ++ ")" else text

namespace Expression

mutual

def text : Expression → String
  | name n => n
  | literal value => value.text
  | unary op operand =>
    let touchesNumber := op == .neg && operand.startsWithNumber
    op.symbol ++ parenthesized (touchesNumber || operand.precedence < 7) operand.text
  | binary op lhs rhs =>
    parenthesized (lhs.precedence < op.precedence) lhs.text ++ " " ++ op.symbol ++ " " ++
      parenthesized (rhs.precedence ≤ op.precedence) rhs.text
  | call target args => target ++ "(" ++ ", ".intercalate (texts args) ++ ")"
  | field target n => parenthesized (target.precedence < 8) target.text ++ "." ++ n
  | index target i => parenthesized (target.precedence < 8) target.text ++ "[" ++ i.text ++ "]"

def texts : List Expression → List String
  | [] => []
  | e :: es => e.text :: texts es

end

theorem texts_eq_map (es : List Expression) : texts es = es.map text := by
  induction es with
  | nil => rfl
  | cons e es ih => rw [texts, ih, List.map_cons]

end Expression
end ProgramTree
