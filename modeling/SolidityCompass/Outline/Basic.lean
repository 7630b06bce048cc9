import SolidityCompass.Text.ByteRange

/-!
# Outlines

The outline of a source text is the tree of its declarations: imports, contracts with their
members, structs and enums. Statements are left out, except for the variables that a function
body declares.
-/

namespace SolidityCompass

structure Name where
  text : String
  range : ByteRange
deriving Repr, DecidableEq, Inhabited

/-- A type as it is written. A function type keeps nothing of its signature. -/
inductive TypeName where
  | named (path : String)
  | mapping (key value : TypeName)
  | array (element : TypeName) (length : Option String)
  | function
deriving Repr, DecidableEq, Inhabited

inductive DataLocation where
  | memory
  | storage
  | calldata
deriving Repr, DecidableEq, Inhabited

def DataLocation.text : DataLocation → String
  | memory => "memory"
  | storage => "storage"
  | calldata => "calldata"

structure Parameter where
  type : TypeName
  location : Option DataLocation
  name : Option Name
  range : ByteRange
deriving Repr, DecidableEq, Inhabited

structure LocalVariable where
  type : TypeName
  name : Name
  range : ByteRange
deriving Repr, DecidableEq, Inhabited

structure Body where
  range : ByteRange
  locals : List LocalVariable
deriving Repr, DecidableEq, Inhabited

inductive FunctionKind where
  | function
  | constructor
  | fallback
  | receive
deriving Repr, DecidableEq, Inhabited

structure Function where
  kind : FunctionKind
  name : Name
  params : List Parameter
  returns : List Parameter
  body : Option Body
  range : ByteRange
deriving Repr, DecidableEq, Inhabited

def Function.locals (f : Function) : List LocalVariable :=
  (f.body.map Body.locals).getD []

structure Event where
  name : Name
  params : List Parameter
  range : ByteRange
deriving Repr, DecidableEq, Inhabited

structure StateVariable where
  type : TypeName
  name : Name
  range : ByteRange
deriving Repr, DecidableEq, Inhabited

structure Field where
  type : TypeName
  name : Name
deriving Repr, DecidableEq, Inhabited

structure Struct where
  name : Name
  fields : List Field
  range : ByteRange
deriving Repr, DecidableEq, Inhabited

structure Enum where
  name : Name
  members : List Name
  range : ByteRange
deriving Repr, DecidableEq, Inhabited

/-- A directive `using library for target`, where no target stands for every type. -/
structure Using where
  library : String
  target : Option TypeName
  range : ByteRange
deriving Repr, DecidableEq, Inhabited

inductive Member where
  | function (f : Function)
  | event (e : Event)
  | variable (v : StateVariable)
  | struct (s : Struct)
  | enum (e : Enum)
  | usingFor (u : Using)
deriving Repr, DecidableEq, Inhabited

inductive ContractKind where
  | contract
  | library
  | interface
deriving Repr, DecidableEq, Inhabited

def ContractKind.text : ContractKind → String
  | contract => "contract"
  | library => "library"
  | interface => "interface"

structure Contract where
  kind : ContractKind
  isAbstract : Bool
  name : Name
  bases : List String
  members : List Member
  range : ByteRange
deriving Repr, DecidableEq, Inhabited

/-- An import; `literal` is the quoted path and `path` what stands between the quotes. -/
structure Import where
  path : String
  literal : ByteRange
  range : ByteRange
deriving Repr, DecidableEq, Inhabited

inductive Item where
  | fileImport (i : Import)
  | contract (c : Contract)
  | struct (s : Struct)
  | enum (e : Enum)
deriving Repr, DecidableEq, Inhabited

structure Outline where
  items : List Item
deriving Repr, DecidableEq, Inhabited

namespace Outline

def imports (outline : Outline) : List Import :=
  outline.items.filterMap fun
    | .fileImport i => some i
    | _ => none

def contracts (outline : Outline) : List Contract :=
  outline.items.filterMap fun
    | .contract c => some c
    | _ => none

def structs (outline : Outline) : List Struct :=
  outline.items.filterMap fun
    | .struct s => some s
    | _ => none

def enums (outline : Outline) : List Enum :=
  outline.items.filterMap fun
    | .enum e => some e
    | _ => none

end Outline

end SolidityCompass
