/-!
# Byte ranges

A stretch of text is named by the byte offsets of its two ends in the UTF-8 form of the text.
`byteLength` measures a list of characters in the same unit.
-/

namespace SolidityCompass

/-- The bytes from `start` up to, and without, `stop`. -/
structure ByteRange where
  start : Nat
  stop : Nat
deriving Repr, DecidableEq, Inhabited

namespace ByteRange

def empty (offset : Nat) : ByteRange := ⟨offset, offset⟩

/-- A cursor at either end of the range touches it. -/
def touches (range : ByteRange) (offset : Nat) : Bool :=
  range.start ≤ offset && offset ≤ range.stop

@[simp] theorem touches_eq_true (range : ByteRange) (offset : Nat) :
    range.touches offset = true ↔ range.start ≤ offset ∧ offset ≤ range.stop := by
  simp [touches]

end ByteRange

def byteLength : List Char → Nat
  | [] => 0
  | c :: cs => c.utf8Size + byteLength cs

@[simp] theorem byteLength_nil : byteLength [] = 0 := rfl

@[simp] theorem byteLength_cons (c : Char) (cs : List Char) :
    byteLength (c :: cs) = c.utf8Size + byteLength cs := rfl

@[simp] theorem byteLength_append (as bs : List Char) :
    byteLength (as ++ bs) = byteLength as + byteLength bs := by
  induction as with
  | nil => simp
  | cons c cs ih => simp [ih, Nat.add_assoc]

end SolidityCompass
