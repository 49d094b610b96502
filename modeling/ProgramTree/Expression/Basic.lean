import ProgramTree.Decimal.Binary64

/-! # Expressions

Expressions are plain values: they are attributes of statements and not nodes
of the tree. Their type admits any text as a name; which names are well formed
is a matter of attaching an expression to a node. -/

namespace ProgramTree

set_option autoImplicit false

inductive Literal
  | int (value : Int64)
  | float (value : Binary64)
  | string (value : String)
  | boolean (value : Bool)
  | null
  deriving DecidableEq

inductive UnaryOp
  | not
  | neg
  deriving DecidableEq, Repr

/-- The binary operators, loosest binding first. -/
inductive BinaryOp
  | or
  | and
  | eq
  | ne
  | lt
  | le
  | gt
  | ge
  | add
  | sub
  | mul
  | div
  | mod
  deriving DecidableEq, Repr

namespace UnaryOp

def symbol : UnaryOp → String
  | not => "!"
  | neg => "-"

def name : UnaryOp → String
  | not => "not"
  | neg => "neg"

end UnaryOp

namespace BinaryOp

def all : List BinaryOp :=
  [or, and, eq, ne, lt, le, gt, ge, add, sub, mul, div, mod]

def symbol : BinaryOp → String
  | or => "||"
  | and => "&&"
  | eq => "=="
  | ne => "!="
  | lt => "<"
  | le => "<="
  | gt => ">"
  | ge => ">="
  | add => "+"
  | sub => "-"
  | mul => "*"
  | div => "/"
  | mod => "%"

def name : BinaryOp → String
  | or => "or"
  | and => "and"
  | eq => "eq"
  | ne => "ne"
  | lt => "lt"
  | le => "le"
  | gt => "gt"
  | ge => "ge"
  | add => "add"
  | sub => "sub"
  | mul => "mul"
  | div => "div"
  | mod => "mod"

/-- Binding strength; a higher one binds tighter, and equal ones group to the left. -/
def precedence : BinaryOp → Nat
  | or => 1
  | and => 2
  | eq | ne => 3
  | lt | le | gt | ge => 4
  | add | sub => 5
  | mul | div | mod => 6

end BinaryOp

/-- The target of a call may carry a package qualifier. -/
inductive Expression
  | name (text : String)
  | literal (value : Literal)
  | unary (op : UnaryOp) (operand : Expression)
  | binary (op : BinaryOp) (lhs rhs : Expression)
  | call (target : String) (args : List Expression)
  | field (target : Expression) (name : String)
  | index (target index : Expression)

namespace Expression

/-- Whether the expression may stand on the left of an assignment. -/
def isAssignable : Expression → Bool
  | name _ | field .. | index .. => true
  | _ => false

def isCall : Expression → Bool
  | call .. => true
  | _ => false

/-- Operators bind looser than prefixes, those looser than suffixes, and those
looser than what is written in one piece. -/
def precedence : Expression → Nat
  | name _ | literal _ | call .. => 9
  | field .. | index .. => 8
  | unary .. => 7
  | binary op .. => op.precedence

/-- Whether the text of the expression begins with a number literal. -/
def startsWithNumber : Expression → Bool
  | literal (.int _) | literal (.float _) => true
  | field target _ | index target _ => target.startsWithNumber
  | _ => false

mutual

/-- Whether two expressions have the same shape and names, and literals that
the given test relates. -/
def alike (test : Literal → Literal → Bool) : Expression → Expression → Bool
  | name a, name b => a == b
  | literal a, literal b => test a b
  | unary op a, unary op' b => op == op' && alike test a b
  | binary op a b, binary op' a' b' => op == op' && alike test a a' && alike test b b'
  | call t args, call t' args' => t == t' && allAlike test args args'
  | field a n, field b n' => alike test a b && n == n'
  | index a i, index b j => alike test a b && alike test i j
  | _, _ => false

/-- The same for lists, element by element. -/
def allAlike (test : Literal → Literal → Bool) : List Expression → List Expression → Bool
  | [], [] => true
  | a :: as, b :: bs => alike test a b && allAlike test as bs
  | _, _ => false

end

mutual

theorem alike_beq_iff (a b : Expression) : alike (· == ·) a b = true ↔ a = b := by
  cases a <;> cases b <;> simp only [alike, Bool.and_eq_true, beq_iff_eq, Bool.false_eq_true,
    reduceCtorEq, name.injEq, literal.injEq, unary.injEq, binary.injEq, call.injEq, field.injEq,
    index.injEq]
  case unary.unary a _ b => simp [alike_beq_iff a b]
  case binary.binary a b _ a' b' => simp [alike_beq_iff a a', alike_beq_iff b b', and_assoc]
  case call.call args _ args' => simp [allAlike_beq_iff args args']
  case field.field a _ b _ => simp [alike_beq_iff a b]
  case index.index a i b j => simp [alike_beq_iff a b, alike_beq_iff i j]

theorem allAlike_beq_iff (as bs : List Expression) :
    allAlike (· == ·) as bs = true ↔ as = bs := by
  match as, bs with
  | [], [] => simp [allAlike]
  | [], _ :: _ => simp [allAlike]
  | _ :: _, [] => simp [allAlike]
  | a :: as, b :: bs => simp [allAlike, alike_beq_iff a b, allAlike_beq_iff as bs]

end

instance : DecidableEq Expression := fun a b =>
  decidable_of_iff _ (alike_beq_iff a b)

end Expression

namespace Literal

/-- Equality of values: floats agree as numbers, all else when it is the same. -/
def agrees : Literal → Literal → Bool
  | float a, float b => a.agrees b
  | a, b => a == b

end Literal

/-- Equality of expressions in which floats agree as numbers. -/
def Expression.agrees : Expression → Expression → Bool :=
  alike Literal.agrees

end ProgramTree
