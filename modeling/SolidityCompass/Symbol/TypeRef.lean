import SolidityCompass.Outline.Basic

/-!
# Type references

What is known of the type of a variable: a name or a mapping, and whether it is an array. Arrays of
arrays count as arrays, so that an index leads from any of them to the element type at once.
-/

namespace SolidityCompass

inductive TypeRef where
  | named (name : String) (isArray : Bool)
  | mapping (key value : TypeRef) (isArray : Bool)
deriving Repr, DecidableEq, Inhabited

namespace TypeRef

def isArray : TypeRef → Bool
  | named _ isArray => isArray
  | mapping _ _ isArray => isArray

def isMapping : TypeRef → Bool
  | named _ _ => false
  | mapping _ _ _ => true

def withArray (isArray : Bool) : TypeRef → TypeRef
  | named name _ => named name isArray
  | mapping key value _ => mapping key value isArray

def display : TypeRef → String
  | named name isArray => name ++ (if isArray then "[]" else "")
  | mapping key value isArray =>
    "mapping(" ++ key.display ++ " => " ++ value.display ++ ")" ++ (if isArray then "[]" else "")

/-- The name without the mark of arrays; a mapping is named by its text. -/
def name (type : TypeRef) : String :=
  (type.withArray false).display

def ofTypeName : TypeName → TypeRef
  | .named path => named path false
  | .mapping key value => mapping (ofTypeName key) (ofTypeName value) false
  | .array element _ => (ofTypeName element).withArray true
  | .function => named "function" false

/-- The type of an element: an index takes an array away first, and then a mapping. -/
def indexed? : TypeRef → Option TypeRef
  | named _ false => none
  | mapping _ value false => some value
  | type => some (type.withArray false)

def afterIndexes? : Nat → TypeRef → Option TypeRef
  | 0, type => some type
  | n + 1, type => type.indexed?.bind (afterIndexes? n)

def simpleName (type : TypeRef) : String :=
  String.ofList (type.name.toList.reverse.takeWhile (· != '.')).reverse

def qualifier? (type : TypeRef) : Option String :=
  match type.name.toList.reverse.dropWhile (· != '.') with
  | [] => none
  | _ :: rest => some (String.ofList rest.reverse)

def isAddressName (name : String) : Bool :=
  name = "address" || name = "address payable"

def isAddress (type : TypeRef) : Bool :=
  !type.isArray && !type.isMapping && isAddressName type.name

/-- Whether a function bound to one type is offered on the other: both agree in shape and name,
where payable addresses count as addresses. -/
def agrees (a b : TypeRef) : Bool :=
  a.isArray = b.isArray && a.isMapping = b.isMapping &&
    (a.name = b.name || (isAddressName a.name && isAddressName b.name))

end TypeRef

structure Binding where
  library : String
  target : Option TypeRef
deriving Repr, DecidableEq, Inhabited

namespace Binding

def ofUsing (u : Using) : Binding :=
  ⟨u.library, u.target.map TypeRef.ofTypeName⟩

def appliesTo (b : Binding) (type : TypeRef) : Bool :=
  match b.target with
  | some target => target.agrees type
  | none => true

end Binding

end SolidityCompass
