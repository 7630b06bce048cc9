import SolidityCompass.Outline.Body
import SolidityCompass.Outline.SyntaxError

/-!
# Readings

A reading is a cursor together with the syntax errors met so far. Readers of declarations take
a reading and give one back; errors are added and never taken away, and the cursor only moves
forward.
-/

namespace SolidityCompass

/-- Where reading stands, and the errors met on the way, the latest first. -/
structure Reading where
  cursor : Cursor
  faults : List SyntaxError
deriving Repr, DecidableEq, Inhabited

namespace Reading

abbrev Reaches (r s : Reading) : Prop := r.cursor.Reaches s.cursor

abbrev Passes (r s : Reading) : Prop := r.cursor.Passes s.cursor

def kind? (r : Reading) : Option Kind := r.cursor.kind?

def sees (r : Reading) (kind : Kind) : Bool := r.cursor.sees kind

def here (r : Reading) : ByteRange := r.cursor.here

def rangeFrom (r : Reading) (start : Nat) : ByteRange := ⟨start, r.cursor.passed⟩

def goTo (r : Reading) (c : Cursor) : Reading := { r with cursor := c }

@[simp] theorem cursor_goTo (r : Reading) (c : Cursor) : (r.goTo c).cursor = c := rfl

def advance (r : Reading) : Reading := r.goTo r.cursor.advance

@[simp] theorem cursor_advance (r : Reading) : r.advance.cursor = r.cursor.advance := rfl

def reportAt (r : Reading) (fault : Fault) (range : ByteRange) : Reading :=
  { r with faults := ⟨fault, range⟩ :: r.faults }

@[simp] theorem cursor_reportAt (r : Reading) (fault : Fault) (range : ByteRange) :
    (r.reportAt fault range).cursor = r.cursor := rfl

def report (r : Reading) (fault : Fault) : Reading :=
  r.reportAt fault r.here

@[simp] theorem cursor_report (r : Reading) (fault : Fault) :
    (r.report fault).cursor = r.cursor := rfl

def skipItem (r : Reading) : Reading := r.goTo r.cursor.skipItem

@[simp] theorem cursor_skipItem (r : Reading) : r.skipItem.cursor = r.cursor.skipItem := rfl

def recover (r : Reading) (fault : Fault) : Reading :=
  (r.report fault).skipItem

@[simp] theorem cursor_recover (r : Reading) (fault : Fault) :
    (r.recover fault).cursor = r.cursor.skipItem := rfl

def skipKind (r : Reading) (kind : Kind) : Reading :=
  if r.sees kind then r.advance else r

theorem reaches_skipKind (r : Reading) (kind : Kind) : r.Reaches (r.skipKind kind) := by
  unfold skipKind
  split
  · exact r.cursor.reaches_advance
  · exact .refl r.cursor

def expect (r : Reading) (kind : Kind) : Reading :=
  if r.sees kind then r.advance else r.report (.expectedToken kind)

theorem reaches_expect (r : Reading) (kind : Kind) : r.Reaches (r.expect kind) := by
  unfold expect
  split
  · exact r.cursor.reaches_advance
  · exact .refl r.cursor

def expectName (r : Reading) (role : NameRole) : Option Name × Reading :=
  match r.cursor.name? with
  | some (name, c) => (some name, r.goTo c)
  | none => (none, r.report (.expectedName role))

theorem reaches_expectName (r : Reading) (role : NameRole) :
    r.Reaches (r.expectName role).2 := by
  unfold expectName
  split
  next name c h => exact (Cursor.passes_of_name? h).reaches
  next => exact .refl r.cursor

/-- Reads a type; a missing type is not reported. -/
def typeName (r : Reading) : Option TypeName × Reading :=
  (r.cursor.typeName.1, r.goTo r.cursor.typeName.2)

theorem reaches_typeName (r : Reading) : r.Reaches r.typeName.2 :=
  r.cursor.reaches_typeName

theorem reaches_of_typeName {r s : Reading} {type : Option TypeName}
    (h : r.typeName = (type, s)) : r.Reaches s := by
  simpa [h] using r.reaches_typeName

theorem reaches_of_expectName {r s : Reading} {role : NameRole} {name : Option Name}
    (h : r.expectName role = (name, s)) : r.Reaches s := by
  simpa [h] using r.reaches_expectName role

end Reading

end SolidityCompass
