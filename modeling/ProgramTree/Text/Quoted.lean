import ProgramTree.Text.Unprintable

/-! # Quoted text in messages

A text that a message quotes stands between double quotes. Quotes, backslashes
and the common controls have short escapes, and what has no glyph of its own
is written by its code point, so the message shows every character. -/

namespace ProgramTree

set_option autoImplicit false

namespace Quoted

def escape (c : Char) : List Char :=
  if c = '"' then ['\\', '"']
  else if c = '\\' then ['\\', '\\']
  else if c = '\n' then ['\\', 'n']
  else if c = '\r' then ['\\', 'r']
  else if c = '\t' then ['\\', 't']
  else if c = '\x00' then ['\\', '0']
  else if isPrintable c then [c]
  else '\\' :: 'u' :: '{' :: (Nat.toDigits 16 c.toNat ++ ['}'])

def text (s : String) : String :=
  String.ofList ('"' :: (s.toList.flatMap escape ++ ['"']))

end Quoted
end ProgramTree
