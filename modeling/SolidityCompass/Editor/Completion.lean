import SolidityCompass.Editor.Suggestion
import SolidityCompass.Text.Word

/-!
# Completion

The suggestions for a cursor in the document of a table. What stands before the cursor decides what
is offered: members after a dot, events after `emit`, files after `import`, and otherwise all names
that are known there.
-/

namespace SolidityCompass

inductive Trigger where
  | plain
  | member (dot : Nat)
  | emit
  | fileImport
deriving Repr, DecidableEq, Inhabited

/-- The trigger of a cursor at a column of a line. A dot takes precedence. -/
def Trigger.before (line : String) (column : Nat) : Trigger :=
  match Word.dot? line column with
  | some dot => .member dot
  | none =>
    if Word.before line column = "emit" then .emit
    else if Word.before line column = "import" then .fileImport
    else .plain

namespace Completion

def afterDot (table : Table) (offset : Nat) (line : String) (dot : Nat) : List Suggestion :=
  ((Viewpoint.ofOffset table offset).membersOf (Chain.ending line dot)).map Suggestion.ofMember

def afterEmit (table : Table) (offset : Nat) : List Suggestion :=
  match table.contractAt? offset with
  | some id => (table.allEvents id).map Suggestion.ofEvent
  | none => []

def ofLineage (table : Table) (id : Nat) : List Suggestion :=
  ((table.allFunctions id).filter Declared.isCallable).map (Suggestion.ofFunction · false) ++
    (table.allEvents id).map Suggestion.ofEvent ++
    (table.allStateVariables id).map Suggestion.ofField ++
    (table.allStructs id).map Suggestion.ofStruct ++
    (table.allEnums id).map Suggestion.ofEnum

def ofScope (scope : Scope) : List Suggestion :=
  let owner := scope.function.home.owner
  let params := (scope.function.inputs ++ scope.function.outputs).filter fun v => v.name != ""
  params.map (Suggestion.ofVariable .variable owner) ++
    scope.locals.map (Suggestion.ofVariable .field owner)

def plain (table : Table) (offset : Nat) : List Suggestion :=
  let view := Viewpoint.ofOffset table offset
  ((view.selected.map (ofLineage table)).getD []) ++
    ((view.scope.map ofScope).getD []) ++
    table.contracts.map Suggestion.ofContract ++
    table.structs.map Suggestion.ofStruct ++
    table.enums.map Suggestion.ofEnum

/-- The suggestions at a position of the document. There are none behind the last line, and files
to import are not suggested here. -/
def suggestions (table : Table) (p : Position) : List Suggestion :=
  match table.document? with
  | none => []
  | some document =>
    match Lines.line? document.text p.line, Lines.offset? document.text p with
    | some line, some offset =>
      match Trigger.before line p.column with
      | .member dot => afterDot table offset line dot
      | .emit => afterEmit table offset
      | .fileImport => []
      | .plain => plain table offset
    | _, _ => []

/-- The suggestions for what one text declares, by contract. A text with syntax errors has none. -/
def ofText (text : String) : List Suggestion :=
  match (readOutline text).strict with
  | .error _ => []
  | .ok outline =>
    outline.contracts.flatMap fun decl =>
      let c : Declared Contract := ⟨decl, ⟨0, none⟩⟩
      (c.functions.filter Declared.isCallable).map (Suggestion.ofFunction · false) ++
        c.events.map Suggestion.ofEvent ++
        c.stateVariables.map Suggestion.ofField ++
        c.enums.map Suggestion.ofEnum ++
        c.structs.map Suggestion.ofStruct

end Completion

end SolidityCompass
