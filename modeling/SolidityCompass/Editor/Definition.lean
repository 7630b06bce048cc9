import SolidityCompass.Symbol.Viewpoint
import SolidityCompass.Text.Word

/-!
# Definitions

Where the name under the cursor is declared. Names are matched by their text alone, so all
declarations of the first kind that matches are found, overloads and hidden ones included.
-/

namespace SolidityCompass

/-- A place in a file. `name` is the declared name, or the path for an imported file. -/
structure Definition where
  file : Nat
  path : Path
  range : ByteRange
  start : Position
  stop : Position
  name : String
deriving Repr, DecidableEq, Inhabited

namespace Definition

def ofRange? (table : Table) (name : String) (file : Nat) (range : ByteRange) :
    Option Definition :=
  (table.files[file]?).map fun source =>
    let ends := Lines.positions source.text range
    ⟨file, source.path, range, ends.1, ends.2, name⟩

def linkAt? (table : Table) (offset : Nat) : Option Link :=
  (table.links.find? fun (file, link) => file = 0 && link.literal.touches offset).map Prod.snd

def ofLink? (table : Table) (link : Link) : Option Definition := do
  let source ← table.sourceAt? link.target
  ofRange? table source.path.text source.id (.empty 0)

def memberLocations (table : Table) (offset : Nat) (line : String) (dot : Nat) (word : String) :
    List (Nat × ByteRange) :=
  (((Viewpoint.ofOffset table offset).membersOf (Chain.ending line dot)).filter
    fun m => m.name = word).filterMap MemberRef.location?

def located? {α : Type} (word : String) (name : α → Name) (d : Declared α) :
    Option (Nat × ByteRange) :=
  if (name d.decl).text = word then some (d.home.file, (name d.decl).range) else none

def locatedVariable? (word : String) (v : Variable) : Option (Nat × ByteRange) :=
  if v.name = word then some (v.file, v.nameRange) else none

def firstFound {α : Type} : List (List α) → List α
  | [] => []
  | found :: rest => if found.isEmpty then firstFound rest else found

/-- The declarations of a bare name: variables in scope, members of the selected lineage,
contracts, or types at file level. -/
def rootLocations (table : Table) (offset : Nat) (word : String) : List (Nat × ByteRange) :=
  let view := Viewpoint.ofOffset table offset
  let inScope := (view.scope.map Scope.visible).getD [] |>.filterMap (locatedVariable? word)
  let inLineage :=
    match view.selected with
    | none => []
    | some id =>
      (table.allFunctions id).filterMap (located? word Function.name) ++
        (table.allEvents id).filterMap (located? word Event.name) ++
        (table.allStateVariables id).filterMap (locatedVariable? word) ++
        (table.allStructs id).filterMap (located? word Struct.name) ++
        (table.allEnums id).filterMap (located? word Enum.name)
  let contracts := table.contracts.filterMap (located? word Contract.name)
  let types :=
    table.structs.filterMap (located? word Struct.name) ++
      table.enums.filterMap (located? word Enum.name)
  firstFound [inScope, inLineage, contracts, types]

def at? (table : Table) (p : Position) : List Definition :=
  match table.document? with
  | none => []
  | some document =>
    match Lines.line? document.text p.line, Lines.offset? document.text p with
    | some line, some offset =>
      match linkAt? table offset with
      | some link => (ofLink? table link).toList
      | none =>
        match Word.at? line p.column with
        | none => []
        | some word =>
          let locations :=
            if word.start != 0 && line.toList[word.start - 1]? = some '.' then
              memberLocations table offset line (word.start - 1) word.text
            else rootLocations table offset word.text
          locations.filterMap fun (file, range) => ofRange? table word.text file range
    | _, _ => []

end Definition

end SolidityCompass
