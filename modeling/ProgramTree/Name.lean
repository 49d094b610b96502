/-! # Names

A word starts with an ASCII letter or an underscore and goes on with those and
digits; an identifier is a word that is not reserved. A qualified name puts a
package and a colon before an identifier, and a type name puts pairs of
brackets after a qualified name. -/

namespace ProgramTree

set_option autoImplicit false

namespace Name

def isWordStart (c : Char) : Bool :=
  c.isAlpha || c == '_'

def isWordChar (c : Char) : Bool :=
  c.isAlphanum || c == '_'

/-- The reserved words. -/
def keywords : List String :=
  ["break", "catch", "continue", "else", "false", "function", "if", "null", "package", "reply",
    "return", "throw", "true", "try", "while"]

def isKeyword (word : List Char) : Bool :=
  keywords.contains (String.ofList word)

def isIdentifier (text : List Char) : Bool :=
  (text.head?.any isWordStart) && text.all isWordChar && !isKeyword text

/-- An identifier, or two of them with a colon between. -/
def isQualified (text : List Char) : Bool :=
  match text.dropWhile (· != ':') with
  | [] => isIdentifier text
  | _ :: localName => isIdentifier (text.takeWhile (· != ':')) && isIdentifier localName

/-- Takes closing brackets off a reversed type name. -/
def dropReversedBrackets : List Char → List Char
  | ']' :: '[' :: rest => dropReversedBrackets rest
  | rest => rest

def isTypeName (text : List Char) : Bool :=
  isQualified (dropReversedBrackets text.reverse).reverse

/-- Identifiers with single points between them. -/
def isPackageName (text : List Char) : Bool :=
  (text.splitOn '.').all isIdentifier

end Name
end ProgramTree
