import ProgramTree.Json
import ProgramTree.Payload

/-! # The written form of payloads

A literal or an expression is an object whose only key names its form. A
payload is an object whose first field names its kind. -/

namespace ProgramTree

set_option autoImplicit false

namespace Json

/-- A value that may be absent is written as itself or as null. -/
def ofOption {α : Type} (write : α → Json) : Option α → Json
  | none => null
  | some a => write a

def strings (items : List String) : Json :=
  array (items.map string)

end Json

def Literal.json : Literal → Json
  | int value => .object [("int", .int value.toInt)]
  | float value => .object [("float", .float value)]
  | string value => .object [("string", .string value)]
  | boolean value => .object [("boolean", .bool value)]
  | null => .string "null"

namespace Expression

mutual

def json : Expression → Json
  | name n => .object [("identifier", .string n)]
  | literal value => .object [("literal", value.json)]
  | unary op operand =>
    .object [("unary", .object [("op", .string op.name), ("operand", operand.json)])]
  | binary op lhs rhs =>
    .object [("binary",
      .object [("op", .string op.name), ("lhs", lhs.json), ("rhs", rhs.json)])]
  | call target args =>
    .object [("call", .object [("target", .string target), ("args", .array (jsons args))])]
  | field target n =>
    .object [("field_access", .object [("target", target.json), ("field", .string n)])]
  | index target i => .object [("index", .object [("target", target.json), ("index", i.json)])]

def jsons : List Expression → List Json
  | [] => []
  | e :: es => e.json :: jsons es

end

end Expression

namespace Payload

/-- The fields of a payload, without its kind. -/
def fields : Payload → List (String × Json)
  | compilationUnit package => [("package", .ofOption .string package)]
  | function name params returns =>
    [("name", .string name),
      ("params", .array (params.map fun p =>
        .object [("type_name", .string p.typeName), ("name", .string p.name)])),
      ("return_types", .strings returns)]
  | ifStatement condition | elseIfClause condition | whileLoop condition =>
    [("condition", condition.json)]
  | assignment target value => [("target", target.json), ("value", value.json)]
  | variableDefinition typeName name initializer =>
    [("type_name", .string typeName), ("name", .string name),
      ("initializer", .ofOption Expression.json initializer)]
  | callStatement expression => [("expression", expression.json)]
  | returnStatement values => [("values", .array (Expression.jsons values))]
  | replyStatement value | throwStatement value => [("value", value.json)]
  | catchClause typeName variableName =>
    [("type_name", .string typeName), ("variable", .string variableName)]
  | comment text => [("text", .string text)]
  | block | elseClause | breakStatement | continueStatement | tryStatement => []

def json (payload : Payload) : Json :=
  .object (("kind", .string payload.kind.name) :: payload.fields)

end Payload
end ProgramTree
