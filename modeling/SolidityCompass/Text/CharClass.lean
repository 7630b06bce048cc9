/-!
# Classes of characters

Identifiers are made of ASCII letters and digits, `_` and `$`, where a digit cannot come first.
Blanks are the characters with the Unicode property `White_Space`; `trimBlanks` drops them from
both ends of a text.
-/

namespace SolidityCompass

def isIdentStart (c : Char) : Bool :=
  c.isAlpha || c = '_' || c = '$'

def isIdentPart (c : Char) : Bool :=
  isIdentStart c || c.isDigit

def whiteSpaceRanges : List (Nat × Nat) :=
  [(0x09, 0x0D), (0x20, 0x20), (0x85, 0x85), (0xA0, 0xA0), (0x1680, 0x1680), (0x2000, 0x200A),
   (0x2028, 0x2029), (0x202F, 0x202F), (0x205F, 0x205F), (0x3000, 0x3000)]

def isBlank (c : Char) : Bool :=
  whiteSpaceRanges.any fun range => range.1 ≤ c.toNat && c.toNat ≤ range.2

def dropBlanks (cs : List Char) : List Char :=
  cs.dropWhile isBlank

def trimBlanks (cs : List Char) : List Char :=
  (dropBlanks (dropBlanks cs).reverse).reverse

end SolidityCompass
