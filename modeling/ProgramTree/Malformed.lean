import ProgramTree.NodeKind
import ProgramTree.Name
import ProgramTree.Expression.Printer
import ProgramTree.Text.Quoted

/-! # Malformed nodes

The reasons for which the attributes of a node are refused, and the checks of
names and expressions that raise them. A check names the kind and the field
that it is made for, so that the message can say where the fault is. -/

namespace ProgramTree

set_option autoImplicit false

/-- What is wrong with a field whose value has the wrong shape. -/
inductive FieldFault
  | nonFiniteFloat (value : Binary64)
  | duplicateParameter (name : String)
  | notAssignable (target : Expression)
  | notCall (expression : Expression)
  | lineBreak
  deriving DecidableEq

def FieldFault.message : FieldFault → String
  | nonFiniteFloat value =>
    "holds a non-finite float literal (" ++ String.ofList (sourceNumbers.text value) ++ ")"
  | duplicateParameter name => "declares parameter '" ++ name ++ "' twice"
  | notAssignable target => "is not assignable: " ++ target.text
  | notCall expression => "must be a function invocation, found " ++ expression.text
  | lineBreak => "must not contain a line break"

inductive MalformedNode
  | missingField (kind : NodeKind) (field : String)
  | invalidIdentifier (kind : NodeKind) (field value : String)
  | invalidField (kind : NodeKind) (field : String) (fault : FieldFault)
  deriving DecidableEq

namespace MalformedNode

def kind : MalformedNode → NodeKind
  | missingField kind _ | invalidIdentifier kind _ _ | invalidField kind _ _ => kind

def message : MalformedNode → String
  | missingField kind field => kind.name ++ " is missing required field `" ++ field ++ "`"
  | invalidIdentifier kind field value =>
    kind.name ++ ": `" ++ field ++ "` is not a valid identifier: " ++ Quoted.text value
  | invalidField kind field fault => kind.name ++ ": `" ++ field ++ "` " ++ fault.message

end MalformedNode

/-- Accepts a text that passes a test of names. -/
def checkName (isName : List Char → Bool) (kind : NodeKind) (field value : String) :
    Except MalformedNode Unit :=
  if isName value.toList then .ok () else .error (.invalidIdentifier kind field value)

/-- Runs a check over a list until the first failure. -/
def checkEach {α : Type} (check : α → Except MalformedNode Unit) :
    List α → Except MalformedNode Unit
  | [] => .ok ()
  | a :: as => do
    check a
    checkEach check as

namespace Expression

mutual

/-- Accepts an expression in which all names are well formed and all floats are
finite; of several faults the leftmost in the text is reported. -/
def validate (kind : NodeKind) (field : String) : Expression → Except MalformedNode Unit
  | .name n => checkName Name.isIdentifier kind field n
  | .literal (.float value) =>
    if value.isFinite then .ok () else .error (.invalidField kind field (.nonFiniteFloat value))
  | .literal _ => .ok ()
  | .unary _ operand => operand.validate kind field
  | .binary _ lhs rhs => do
    lhs.validate kind field
    rhs.validate kind field
  | .call target args => do
    checkName Name.isQualified kind field target
    validateAll kind field args
  | .field target n => do
    target.validate kind field
    checkName Name.isIdentifier kind field n
  | .index target i => do
    target.validate kind field
    i.validate kind field

def validateAll (kind : NodeKind) (field : String) : List Expression → Except MalformedNode Unit
  | [] => .ok ()
  | e :: es => do
    e.validate kind field
    validateAll kind field es

end

end Expression
end ProgramTree
