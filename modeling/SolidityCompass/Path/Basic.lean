/-!
# Paths

A path is a text in which `/` separates components. Empty components and inner `.` components do
not count, so two texts may name the same path: `Path.same` compares components, and so do
`isUnder`, `remainder?` and the order. The text of a path is kept as it was written until a path
is rebuilt from its components.
-/

namespace SolidityCompass

/-- A part of a path. `current` occurs only at the front of a relative path. -/
inductive Component where
  | root
  | current
  | parent
  | name (text : String)
deriving Repr, DecidableEq, Inhabited

namespace Component

/-- The root comes first, then `.`, then `..`, then names in the order of their characters. -/
def rank : Component → Nat
  | root => 0
  | current => 1
  | parent => 2
  | name _ => 3

def lt : Component → Component → Bool
  | name a, name b => a < b
  | a, b => a.rank < b.rank

end Component

structure Path where
  text : String
deriving Repr, DecidableEq, Inhabited

namespace Path

def pieces : List Char → List (List Char)
  | [] => [[]]
  | c :: cs =>
    if c = '/' then [] :: pieces cs
    else
      match pieces cs with
      | [] => [[c]]
      | piece :: rest => (c :: piece) :: rest

def innerComponent? (piece : List Char) : Option Component :=
  if piece = [] || piece = ['.'] then none
  else if piece = ['.', '.'] then some .parent
  else some (.name (String.ofList piece))

def firstComponent? (piece : List Char) : Option Component :=
  if piece = ['.'] then some .current else innerComponent? piece

def isAbsolute (p : Path) : Bool :=
  p.text.toList.head? = some '/'

def components (p : Path) : List Component :=
  match pieces p.text.toList with
  | [] => []
  | first :: rest =>
    (if p.isAbsolute then [.root] else (firstComponent? first).toList) ++
      rest.filterMap innerComponent?

def same (p q : Path) : Bool :=
  p.components = q.components

theorem same_iff {p q : Path} : p.same q = true ↔ p.components = q.components := by
  simp [same]

theorem same_eq_false_iff {p q : Path} : p.same q = false ↔ p.components ≠ q.components := by
  simp [same]

theorem same_comm (p q : Path) : p.same q = q.same p := by
  rw [Bool.eq_iff_iff, same_iff, same_iff, eq_comm]

theorem same_congr {p q : Path} (h : p.same q = true) (r : Path) : p.same r = q.same r := by
  simp only [same, same_iff.mp h]

def isUnder (p base : Path) : Bool :=
  base.components.isPrefixOf p.components

def remainder? (p base : Path) : Option (List Component) :=
  if p.isUnder base then some (p.components.drop base.components.length) else none

def componentsLe : List Component → List Component → Bool
  | [], _ => true
  | _ :: _, [] => false
  | a :: as, b :: bs => if a = b then componentsLe as bs else a.lt b

def le (p q : Path) : Bool :=
  componentsLe p.components q.components

/-- `base` followed by `relative`. An absolute second path replaces the first. -/
def join (base : Path) (relative : String) : Path :=
  if (Path.mk relative).isAbsolute || base.text = "" then ⟨relative⟩
  else if base.text.toList.getLast? = some '/' then ⟨base.text ++ relative⟩
  else ⟨base.text ++ "/" ++ relative⟩

def dropEmptyPieces : List (List Char) → List (List Char)
  | [] => []
  | [first] => if first = [] then [] else [first]
  | piece :: rest =>
    if piece = [] || piece = ['.'] then dropEmptyPieces rest else piece :: rest

/-- The directory of a path, its text cut behind the last component but one. The root and the
empty path have none. -/
def parent? (p : Path) : Option Path :=
  match dropEmptyPieces (pieces p.text.toList).reverse with
  | [] => none
  | _ :: rest =>
    match dropEmptyPieces rest with
    | [] => some ⟨if p.isAbsolute then "/" else ""⟩
    | kept => some ⟨"/".intercalate (kept.reverse.map String.ofList)⟩

/-- The part of a file name behind its last dot; a dot at the front does not count. -/
def extensionOf (name : String) : Option String :=
  match name.toList.reverse.dropWhile (· != '.') with
  | _ :: _ :: _ => some (String.ofList (name.toList.reverse.takeWhile (· != '.')).reverse)
  | _ => none

def extension? (p : Path) : Option String :=
  match p.components.getLast? with
  | some (.name name) => extensionOf name
  | _ => none

end Path

end SolidityCompass
