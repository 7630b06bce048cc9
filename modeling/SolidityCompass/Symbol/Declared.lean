import SolidityCompass.Symbol.TypeRef

/-!
# Declared things

A declaration of an outline together with its home: the file and, for members, the contract in
which it stands. Everything with a type and a name is seen as a `Variable`, whether it is a
state variable, a parameter, a local or a field.
-/

namespace SolidityCompass

/-- The index of a file, and the contract inside it unless the declaration stands at file level. -/
structure Home where
  file : Nat
  contract : Option String
deriving Repr, DecidableEq, Inhabited

def Home.owner (home : Home) : String :=
  home.contract.getD "file"

structure Declared (α : Type) where
  decl : α
  home : Home
deriving Repr, DecidableEq, Inhabited

inductive VariableRole where
  | state
  | parameter
  | returned
  | localVariable
  | field
  | eventParameter
deriving Repr, DecidableEq, Inhabited

def VariableRole.text : VariableRole → String
  | state => "state variable"
  | parameter => "function parameter"
  | returned => "return parameter"
  | localVariable => "function variable"
  | field => "struct field"
  | eventParameter => "event parameter"

/-- A value of a declared type. An unnamed parameter has the empty name and is found at its whole
range. `container` names the contract, struct or function that holds the variable. -/
structure Variable where
  name : String
  type : TypeRef
  role : VariableRole
  container : String
  file : Nat
  nameRange : ByteRange
  range : ByteRange
deriving Repr, DecidableEq, Inhabited

namespace Variable

def ofParameter (role : VariableRole) (container : String) (file : Nat) (p : Parameter) :
    Variable :=
  { name := (p.name.map Name.text).getD ""
    type := .ofTypeName p.type
    role := role
    container := container
    file := file
    nameRange := (p.name.map Name.range).getD p.range
    range := p.range }

def ofLocal (container : String) (file : Nat) (v : LocalVariable) : Variable :=
  { name := v.name.text
    type := .ofTypeName v.type
    role := .localVariable
    container := container
    file := file
    nameRange := v.name.range
    range := v.range }

def ofField (container : String) (file : Nat) (f : Field) : Variable :=
  { name := f.name.text
    type := .ofTypeName f.type
    role := .field
    container := container
    file := file
    nameRange := f.name.range
    range := f.name.range }

def ofState (contract : String) (file : Nat) (v : StateVariable) : Variable :=
  { name := v.name.text
    type := .ofTypeName v.type
    role := .state
    container := contract
    file := file
    nameRange := v.name.range
    range := v.range }

def signature (v : Variable) : String :=
  if v.name = "" then v.type.display else v.type.display ++ " " ++ v.name

end Variable

namespace Declared

section functions

variable (f : Declared Function)

def inputs : List Variable :=
  f.decl.params.map (.ofParameter .parameter f.decl.name.text f.home.file)

def outputs : List Variable :=
  f.decl.returns.map (.ofParameter .returned f.decl.name.text f.home.file)

def locals : List Variable :=
  f.decl.locals.map (.ofLocal f.decl.name.text f.home.file)

/-- Constructors, fallbacks and receivers cannot be called by name. -/
def isCallable : Bool :=
  f.decl.kind = .function

def result? : Option TypeRef :=
  match f.outputs with
  | [only] => some only.type
  | _ => none

end functions

def eventParams (e : Declared Event) : List Variable :=
  e.decl.params.map (.ofParameter .eventParameter e.decl.name.text e.home.file)

def fields (s : Declared Struct) : List Variable :=
  s.decl.fields.map (.ofField s.decl.name.text s.home.file)

section contracts

variable (c : Declared Contract)

def members {α : Type} (pick : Member → Option α) : List (Declared α) :=
  (c.decl.members.filterMap pick).map (⟨·, ⟨c.home.file, some c.decl.name.text⟩⟩)

def functions : List (Declared Function) :=
  c.members fun
    | .function f => some f
    | _ => none

def events : List (Declared Event) :=
  c.members fun
    | .event e => some e
    | _ => none

def structs : List (Declared Struct) :=
  c.members fun
    | .struct s => some s
    | _ => none

def enums : List (Declared Enum) :=
  c.members fun
    | .enum e => some e
    | _ => none

def stateVariables : List Variable :=
  c.decl.members.filterMap fun
    | .variable v => some (.ofState c.decl.name.text c.home.file v)
    | _ => none

def bindings : List Binding :=
  c.decl.members.filterMap fun
    | .usingFor u => some (.ofUsing u)
    | _ => none

def functionAt? (offset : Nat) : Option (Declared Function) :=
  c.functions.find? fun f => f.decl.range.touches offset

end contracts

end Declared

end SolidityCompass
