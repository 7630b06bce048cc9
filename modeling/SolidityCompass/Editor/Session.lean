import SolidityCompass.Editor.Catalog
import SolidityCompass.Editor.Completion
import SolidityCompass.Editor.Definition
import SolidityCompass.Symbol.Loading

/-!
# Sessions

A session keeps what lasts between the requests of an editor: the configuration, the store and
the open buffers. Every request loads its document anew, and nothing else is kept.
-/

namespace SolidityCompass

structure Session where
  config : Config
  base : Store
  buffers : FileMap
deriving Repr, Inhabited

/-- A document with its table and the rules by which its imports were resolved. -/
structure Analysis where
  path : Path
  rules : ImportRules
  table : Table
deriving Repr, Inhabited

namespace Session

def start (config : Config) (base : Store) : Session :=
  ⟨config, base, .empty⟩

def store (session : Session) : Store :=
  .overlay session.buffers session.base

def configure (session : Session) (config : Config) : Session :=
  { session with config := config }

def openBuffer (session : Session) (path : Path) (text : String) : Session :=
  { session with buffers := session.buffers.insert path text }

def closeBuffer (session : Session) (path : Path) : Session :=
  { session with buffers := session.buffers.erase path }

def hasBuffer (session : Session) (path : Path) : Bool :=
  session.buffers.contains path

def analyze (session : Session) (path : Path) (text : String) : Analysis :=
  let rules := ImportRules.forDocument session.config path session.store
  ⟨path, rules, .load rules path text⟩

end Session

namespace Analysis

def importsAt (analysis : Analysis) (p : Position) : Bool :=
  match analysis.table.document? with
  | none => false
  | some document =>
    match Lines.line? document.text p.line with
    | some line => Trigger.before line p.column = .fileImport
    | none => false

def completions (analysis : Analysis) (p : Position) : List Suggestion :=
  (if analysis.importsAt p then analysis.rules.offers analysis.path
    else Completion.suggestions analysis.table p) ++ Catalog.all

def definitions (analysis : Analysis) (p : Position) : List Definition :=
  Definition.at? analysis.table p

def documentSuggestions (analysis : Analysis) : List Suggestion :=
  (analysis.table.document?.map fun document => Completion.ofText document.text).getD []

end Analysis

end SolidityCompass
