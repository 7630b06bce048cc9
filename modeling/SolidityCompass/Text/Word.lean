import SolidityCompass.Text.WordChar

/-!
# The word at a column

Three questions about one line of text and a column in it: which word the column touches, which
word was typed before it, and whether it continues a name after a dot.
-/

namespace SolidityCompass

structure Word where
  text : String
  start : Nat
  stop : Nat
deriving Repr, DecidableEq, Inhabited

namespace Word

def bounds? (cs : List Char) (column : Nat) : Option (Nat × Nat) :=
  if (cs[column]?).any isWordChar then
    some (column - ((cs.take column).reverse.takeWhile isWordChar).length,
      column + ((cs.drop column).takeWhile isWordChar).length)
  else none

/-- The word that a cursor touches: the one under it, or the one that ends before it. -/
def at? (line : String) (column : Nat) : Option Word :=
  let cs := line.toList
  let before := if column = 0 then none else bounds? cs (column - 1)
  ((bounds? cs column).or before).map fun (start, stop) =>
    ⟨String.ofList ((cs.drop start).take (stop - start)), start, stop⟩

def backwards (line : String) (column : Nat) : List Char :=
  (line.toList.take column).reverse

/-- The identifier that ends before a column, with spaces in between allowed. There is none if
another character than a space stands before it. -/
def before (line : String) (column : Nat) : String :=
  let cs := (backwards line column).dropWhile (· = ' ')
  match cs.dropWhile isIdentPart with
  | [] => String.ofList (cs.takeWhile isIdentPart).reverse
  | c :: _ => if c = ' ' then String.ofList (cs.takeWhile isIdentPart).reverse else ""

/-- The column of the dot whose member is being typed. A dot that begins the line has no member. -/
def dot? (line : String) (column : Nat) : Option Nat :=
  match (backwards line column).dropWhile isIdentPart with
  | '.' :: c :: cs => some (c :: cs).length
  | _ => none

end Word

end SolidityCompass
