import SolidityCompass.Text.CharClass
import SolidityCompass.Token.Kind

/-!
# Lexemes

The lexeme at the head of a text is the longest prefix that some kind of token admits. It is
given by its kind and by the number of characters that it takes after the first one, so that
every lexeme consumes at least one character. A string literal that is not closed on its line
is an error lexeme made of all that could have belonged to the literal.
-/

namespace SolidityCompass

namespace Lexeme

def run (p : Char → Bool) (cs : List Char) : Nat :=
  (cs.takeWhile p).length

def isSpace (c : Char) : Bool :=
  c = ' ' || c = '\t' || c = '\r' || c = '\n' || c = '\x0c'

def isDigitPart (c : Char) : Bool :=
  c.isDigit || c = '_'

def isHexPart (c : Char) : Bool :=
  isDigitPart c || ('a' ≤ c && c ≤ 'f') || ('A' ≤ c && c ≤ 'F')

/-- A point counts only when a digit follows it. -/
def fraction : List Char → Nat
  | '.' :: cs => if run isDigitPart cs = 0 then 0 else run isDigitPart cs + 1
  | _ => 0

def exponent : List Char → Nat
  | mark :: '-' :: cs =>
    if (mark = 'e' || mark = 'E') && run isDigitPart cs != 0 then run isDigitPart cs + 2 else 0
  | mark :: cs =>
    if (mark = 'e' || mark = 'E') && run isDigitPart cs != 0 then run isDigitPart cs + 1 else 0
  | [] => 0

def decimal (cs : List Char) : Nat :=
  let whole := run isDigitPart cs
  let part := fraction (cs.drop whole)
  whole + part + exponent (cs.drop (whole + part))

def number (first : Char) (cs : List Char) : Nat :=
  match cs with
  | mark :: digits =>
    if first = '0' && (mark = 'x' || mark = 'X') && run isHexPart digits != 0 then
      run isHexPart digits + 1
    else decimal cs
  | [] => 0

/-- The characters of a literal after its opening quote, and whether the quote is closed. -/
def quoted (quote : Char) : List Char → Nat × Bool
  | [] => (0, false)
  | '\\' :: escaped :: cs =>
    if escaped = '\n' then (0, false)
    else
      let tail := quoted quote cs
      (tail.1 + 2, tail.2)
  | c :: cs =>
    if c = quote then (1, true)
    else if c = '\\' || c = '\r' || c = '\n' then (0, false)
    else
      let tail := quoted quote cs
      (tail.1 + 1, tail.2)

def commentBody : List Char → Nat
  | [] => 0
  | '*' :: '/' :: _ => 2
  | _ :: cs => commentBody cs + 1

/-- Punctuation and operators, the longer spellings first. -/
def symbols : List (List Char × Kind) :=
  [(['<', '<', '='], .operator), (['>', '>', '='], .operator),
   (['=', '>'], .fatArrow),
   (['=', '='], .operator), (['!', '='], .operator), (['<', '='], .operator),
   (['>', '='], .operator), (['&', '&'], .operator), (['|', '|'], .operator),
   (['+', '+'], .operator), (['-', '-'], .operator), (['+', '='], .operator),
   (['-', '='], .operator), (['*', '='], .operator), (['/', '='], .operator),
   (['%', '='], .operator), (['|', '='], .operator), (['&', '='], .operator),
   (['^', '='], .operator), (['*', '*'], .operator), (['<', '<'], .operator),
   (['>', '>'], .operator), (['-', '>'], .operator), ([':', '='], .operator),
   (['\x7b'], .opens .brace), (['\x7d'], .closes .brace),
   (['['], .opens .square), ([']'], .closes .square),
   (['('], .opens .paren), ([')'], .closes .paren),
   ([';'], .semicolon), ([','], .comma), (['.'], .dot), (['='], .eq), (['*'], .star),
   (['+'], .operator), (['-'], .operator), (['/'], .operator), (['%'], .operator),
   (['!'], .operator), (['~'], .operator), (['^'], .operator), (['&'], .operator),
   (['|'], .operator), (['<'], .operator), (['>'], .operator), (['?'], .operator),
   ([':'], .operator), (['@'], .operator)]

def symbol? (cs : List Char) : Option (List Char × Kind) :=
  symbols.find? (fun symbol => symbol.1.isPrefixOf cs)

def wordKind (word : List Char) : Kind :=
  match Keyword.ofText? (String.ofList word) with
  | some keyword => .keyword keyword
  | none => .ident

end Lexeme

open Lexeme in
/-- The kind of the lexeme that `c` begins, and how many of the characters `cs` belong to it. -/
def lexeme (c : Char) (cs : List Char) : Kind × Nat :=
  if isSpace c then (.whitespace, run isSpace cs)
  else if isIdentStart c then (wordKind (c :: cs.take (run isIdentPart cs)), run isIdentPart cs)
  else if c.isDigit then (.number, number c cs)
  else if c = '"' || c = '\'' then
    (if (quoted c cs).2 then .string else .error, (quoted c cs).1)
  else if c = '/' && cs.head? = some '/' then (.lineComment, run (· != '\n') cs)
  else if c = '/' && cs.head? = some '*' then (.blockComment, commentBody cs.tail + 1)
  else
    match symbol? (c :: cs) with
    | some (spelling, kind) => (kind, spelling.length - 1)
    | none => (.error, 0)

end SolidityCompass
