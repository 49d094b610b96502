/-! # Blank characters and trimming

The blank characters are those with the property White_Space. Trimming takes
them off both ends of a text and leaves the inside alone. -/

namespace ProgramTree

set_option autoImplicit false

/-- Whether a character has the property White_Space. -/
def isBlank (c : Char) : Bool :=
  let n := c.toNat
  (0x09 ≤ n && n ≤ 0x0d) || n == 0x20 || n == 0x85 || n == 0xa0 || n == 0x1680
    || (0x2000 ≤ n && n ≤ 0x200a) || n == 0x2028 || n == 0x2029 || n == 0x202f
    || n == 0x205f || n == 0x3000

def trimBlanks (text : String) : String :=
  String.ofList (((text.toList.dropWhile isBlank).reverse.dropWhile isBlank).reverse)

end ProgramTree
