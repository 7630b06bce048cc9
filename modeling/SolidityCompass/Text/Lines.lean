import SolidityCompass.Text.ByteRange

/-!
# Lines and positions

An editor names places by line and column, where a column counts characters; the library names
them by byte offset. Lines end at a line feed. A carriage return before the end of a line belongs
to the terminator, so no column lies behind it.
-/

namespace SolidityCompass

structure Position where
  line : Nat
  column : Nat
deriving Repr, DecidableEq, Inhabited

def Position.describe (p : Position) : String :=
  toString (p.line + 1) ++ ":" ++ toString (p.column + 1)

namespace Lines

def split : List Char → List (List Char)
  | [] => [[]]
  | c :: cs =>
    if c = '\n' then [] :: split cs
    else
      match split cs with
      | [] => [[c]]
      | line :: lines => (c :: line) :: lines

theorem split_ne_nil (cs : List Char) : split cs ≠ [] := by
  cases cs with
  | nil => simp [split]
  | cons c cs =>
    unfold split
    split
    · simp
    · split <;> simp

def dropReturn (line : List Char) : List Char :=
  if line.getLast? = some '\r' then line.dropLast else line

/-- The number of lines; a text without line feeds has one. -/
def count (text : String) : Nat :=
  (split text.toList).length

def chars? (text : String) (line : Nat) : Option (List Char) :=
  ((split text.toList)[line]?).map dropReturn

def bytesBefore : (n : Nat) → List (List Char) → Nat
  | 0, _ => 0
  | _ + 1, [] => 0
  | n + 1, line :: lines => byteLength line + 1 + bytesBefore n lines

def start (text : String) (line : Nat) : Nat :=
  bytesBefore line (split text.toList)

def line? (text : String) (line : Nat) : Option String :=
  (chars? text line).map String.ofList

def range? (text : String) (line : Nat) : Option ByteRange :=
  (chars? text line).map fun cs => ⟨start text line, start text line + byteLength cs⟩

/-- The byte offset of a position. A column behind the end of its line stands for the end, and
there is none behind the last line. -/
def offset? (text : String) (p : Position) : Option Nat :=
  (chars? text p.line).map fun cs => start text p.line + byteLength (cs.take p.column)

def positionFrom (line column : Nat) : Nat → List Char → Position
  | _, [] => ⟨line, column⟩
  | offset, c :: cs =>
    if offset = 0 then ⟨line, column⟩
    else if offset < c.utf8Size then ⟨line, 0⟩
    else if c = '\n' then positionFrom (line + 1) 0 (offset - c.utf8Size) cs
    else positionFrom line (column + 1) (offset - c.utf8Size) cs

/-- The position of a byte offset. Offsets behind the text stand for its end, and one inside a
character has column zero. -/
def position (text : String) (offset : Nat) : Position :=
  positionFrom 0 0 offset text.toList

def positions (text : String) (range : ByteRange) : Position × Position :=
  (position text range.start, position text range.stop)

end Lines

end SolidityCompass
