import SolidityCompass.Chain
import SolidityCompass.Symbol.Builtin
import SolidityCompass.Symbol.Lineage
import SolidityCompass.Symbol.Scope

/-!
# Resolving chains

From a place in the document a chain of accesses is followed through the table, from its root to
its last access. What it means is a `Target`, and the members of the target are what may follow
after a further dot.
-/

namespace SolidityCompass

/-- What a chain means: a value, where the name of a contract stands for a value of its type; the
contract around the cursor; an enum; or a global namespace. -/
inductive Target where
  | value (type : TypeRef)
  | contract (id : Nat)
  | enum (e : Declared Enum)
  | builtins (members : List Builtin)
deriving Repr, DecidableEq, Inhabited

/-- Something that may follow after a dot. The first parameter of an extension is the value on
which it is called. -/
inductive MemberRef where
  | function (f : Declared Function) (isExtension : Bool)
  | event (e : Declared Event)
  | variable (v : Variable)
  | enumValue (e : Declared Enum) (value : Name)
  | builtin (b : Builtin)
deriving Repr, DecidableEq, Inhabited

namespace MemberRef

def name : MemberRef → String
  | .function f _ => f.decl.name.text
  | .event e => e.decl.name.text
  | .variable v => v.name
  | .enumValue _ value => value.text
  | .builtin b => b.name

def location? : MemberRef → Option (Nat × ByteRange)
  | .function f _ => some (f.home.file, f.decl.name.range)
  | .event e => some (e.home.file, e.decl.name.range)
  | .variable v => some (v.file, v.nameRange)
  | .enumValue e value => some (e.home.file, value.range)
  | .builtin _ => none

end MemberRef

structure Viewpoint where
  table : Table
  selected : Option Nat
  scope : Option Scope
deriving Repr, DecidableEq, Inhabited

namespace Viewpoint

def ofOffset (table : Table) (offset : Nat) : Viewpoint :=
  let selected := table.contractAt? offset
  let scope := do
    let contract ← table.contracts[← selected]?
    Scope.at? (← contract.functionAt? offset) offset
  ⟨table, selected, scope⟩

variable (view : Viewpoint)

def applyIndexes (indexes : Nat) (target : Target) : Option Target :=
  if indexes = 0 then some target
  else
    match target with
    | .value type => (type.afterIndexes? indexes).map .value
    | _ => none

/-- The struct that a type names. A qualifier that is a known contract decides where to look;
otherwise structs of the selected lineage come first, then those at file level, then those of any
contract. -/
def structOf? (type : TypeRef) : Option (Declared Struct) :=
  if type.isArray || type.isMapping then none
  else
    let isNamed (s : Declared Struct) : Bool := s.decl.name.text = type.simpleName
    match type.qualifier?.bind view.table.contractNamed? with
    | some id => (view.table.allStructs id).find? isNamed
    | none =>
      ((view.selected.bind fun id => (view.table.allStructs id).find? isNamed).or
        (view.table.structs.find? isNamed)).or
        ((view.table.contracts.flatMap Declared.structs).find? isNamed)

def contractOf? (type : TypeRef) : Option Nat :=
  if type.isArray || type.isMapping then none
  else view.table.contractNamed? type.simpleName

/-- The names of the libraries that the selected contract binds to a type, each once. -/
def boundLibraries (type : TypeRef) : List String :=
  match view.selected with
  | none => []
  | some id =>
    (((view.table.allBindings id).filter fun b => b.appliesTo type).map Binding.library).eraseDups

def extensions (type : TypeRef) : List (Declared Function) :=
  ((view.boundLibraries type).filterMap view.table.contractNamed?).flatMap fun library =>
    (view.table.allFunctions library).filter fun f =>
      f.isCallable && f.inputs.head?.any fun first => first.type.agrees type

/-- A variable in scope, a state variable or enum of the selected lineage, an enum at file level or
a contract. -/
def lookupName? (name : String) : Option Target :=
  let fromScope := (view.scope.bind fun scope => scope.find? name).map fun v => .value v.type
  let fromLineage := view.selected.bind fun id =>
    (((view.table.allStateVariables id).find? fun v => v.name = name).map fun v => .value v.type).or
      (((view.table.allEnums id).find? fun e => e.decl.name.text = name).map .enum)
  let fromFiles := (view.table.enums.find? fun e => e.decl.name.text = name).map .enum
  let contract := (view.table.contractNamed? name).map fun _ => .value (.named name false)
  ((fromScope.or fromLineage).or fromFiles).or contract

/-- The result of a call. Functions of the selected lineage are matched by name, and the first one
with a single result decides; where there is none by that name, the call may be a conversion. -/
def lookupCall? (name : String) : Option Target :=
  let overloads : List (Declared Function) :=
    match view.selected with
    | some id => (view.table.allFunctions id).filter fun f => f.decl.name.text = name
    | none => []
  if overloads.isEmpty then
    if name = "address" then some (.value (.named "address" false))
    else if name = "payable" then some (.value (.named "address payable" false))
    else (view.table.contractNamed? name).map fun _ => .value (.named name false)
  else (overloads.findSome? Declared.result?).map .value

def lookupRoot? (access : Access) : Option Target :=
  (if access.isCall then view.lookupCall? access.name else view.lookupName? access.name).bind
    (applyIndexes access.indexes)

def lookupMember? (id : Nat) (access : Access) : Option Target :=
  let found :=
    if access.isCall then
      ((view.table.allFunctions id).filter fun f => f.decl.name.text = access.name).findSome?
        Declared.result? |>.map .value
    else
      (((view.table.allStateVariables id).find? fun v => v.name = access.name).map
        fun v => .value v.type).or
        (((view.table.allEnums id).find? fun e => e.decl.name.text = access.name).map .enum)
  found.bind (applyIndexes access.indexes)

def lookupInValue? (type : TypeRef) (access : Access) : Option Target :=
  match view.structOf? type with
  | some s =>
    if access.isCall then none
    else
      (s.fields.find? fun v => v.name = access.name).bind fun v =>
        applyIndexes access.indexes (.value v.type)
  | none =>
    let member := (view.contractOf? type).bind fun id => view.lookupMember? id access
    let extension :=
      if access.isCall then
        ((view.extensions type).find? fun f => f.decl.name.text = access.name).bind fun f =>
          f.result?.bind fun result => applyIndexes access.indexes (.value result)
      else none
    member.or extension

def descend? (target : Target) (access : Access) : Option Target :=
  match target with
  | .contract id => view.lookupMember? id access
  | .value type => view.lookupInValue? type access
  | .enum _ | .builtins _ => none

def follow? (root : Access) (rest : List Access) : Option Target :=
  (view.lookupRoot? root).bind fun target => rest.foldlM view.descend? target

/-- What a chain means. A name at its end that stands for a global namespace takes precedence.
`this` alone is the selected contract, and in front of other accesses it is passed over. -/
def resolve? (chain : Chain) : Option Target :=
  if chain.isBlank then none
  else
    let last := chain.last
    let globals := if last.isVariable && !last.isIndexed then Builtin.namespace? last.name else none
    match globals with
    | some members => some (.builtins members)
    | none =>
      if chain.root.name = "this" && chain.root.isVariable then
        match chain.rest with
        | [] => view.selected.map .contract
        | next :: rest => view.follow? next rest
      else view.follow? chain.root chain.rest

def contractMembers (id : Nat) : List MemberRef :=
  ((view.table.allFunctions id).filter Declared.isCallable).map (.function · false) ++
    (view.table.allStateVariables id).map .variable

/-- What a value of a type offers: the fields of its struct or the members of its contract, the
built-in members of arrays and addresses, and the functions bound to the type. -/
def valueMembers (type : TypeRef) : List MemberRef :=
  let own :=
    match view.structOf? type with
    | some s => s.fields.map .variable
    | none => ((view.contractOf? type).map view.contractMembers).getD []
  own ++ (if type.isArray then Builtin.ofArray.map .builtin else []) ++
    (if type.isAddress then Builtin.ofAddress.map .builtin else []) ++
    (view.extensions type).map (.function · true)

def members : Target → List MemberRef
  | .builtins members => members.map .builtin
  | .enum e => e.decl.members.map (.enumValue e)
  | .contract id => view.contractMembers id
  | .value type => view.valueMembers type

def membersOf (chain : Chain) : List MemberRef :=
  ((view.resolve? chain).map view.members).getD []

end Viewpoint

end SolidityCompass
