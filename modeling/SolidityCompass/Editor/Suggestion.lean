import SolidityCompass.Editor.Snippet
import SolidityCompass.Symbol.Viewpoint

/-!
# Suggestions

A suggestion is what an editor shows in its list of completions and inserts when it is chosen.
There are suggestions for declared things, for members and, after the word `import`, for the source
files of the project, each spelled as it would be written in the document.
-/

namespace SolidityCompass

inductive ItemKind where
  | method
  | function
  | constructor
  | field
  | variable
  | contract
  | interface
  | module
  | property
  | unit
  | enum
  | keyword
  | reference
  | enumMember
  | constant
  | struct
  | event
deriving Repr, DecidableEq, Inhabited

def ItemKind.code : ItemKind → Nat
  | .method => 2
  | .function => 3
  | .constructor => 4
  | .field => 5
  | .variable => 6
  | .contract => 7
  | .interface => 8
  | .module => 9
  | .property => 10
  | .unit => 11
  | .enum => 13
  | .keyword => 14
  | .reference => 18
  | .enumMember => 20
  | .constant => 21
  | .struct => 22
  | .event => 23

inductive Insertion where
  | plain (content : String)
  | snippet (call : Snippet)
deriving Repr, DecidableEq, Inhabited

def Insertion.text : Insertion → String
  | .plain content => content
  | .snippet call => call.render

structure Suggestion where
  label : String
  kind : ItemKind
  detail : Option String := none
  documentation : Option String := none
  insertion : Option Insertion := none
deriving Repr, DecidableEq, Inhabited

namespace Suggestion

def signatures (params : List Variable) : String :=
  ", ".intercalate (params.map Variable.signature)

/-- The defaults of the slots for parameters: their names, or their types where they have none. -/
def defaults (params : List Variable) : List String :=
  params.map fun p => if p.name = "" then p.type.display else p.name

/-- A function as a call. An extension is called on its first argument, which gets no slot. -/
def ofFunction (f : Declared Function) (isExtension : Bool) : Suggestion :=
  let name := f.decl.name.text
  let call := "(function in " ++ f.home.owner ++ ") " ++ name ++ "(" ++ signatures f.inputs ++ ")"
  let info :=
    if f.outputs.isEmpty then call else call ++ " returns (" ++ signatures f.outputs ++ ")"
  let params := if isExtension then f.inputs.tail else f.inputs
  { label := name
    kind := .function
    detail := some info
    documentation := some info
    insertion := some (.snippet (.call name (defaults params) ";")) }

def ofEvent (e : Declared Event) : Suggestion :=
  let name := e.decl.name.text
  let info := "(event in " ++ e.home.owner ++ ") " ++ name ++ "(" ++ signatures e.eventParams ++ ")"
  { label := name
    kind := .event
    detail := some info
    documentation := some info
    insertion := some (.snippet (.call name (defaults e.eventParams) ";")) }

def ofVariable (kind : ItemKind) (owner : String) (v : Variable) : Suggestion :=
  { label := v.name
    kind := kind
    detail := some ("(" ++ v.role.text ++ " in " ++ owner ++ ") " ++ v.signature) }

def ofField (v : Variable) : Suggestion :=
  ofVariable .field v.container v

def ofStruct (s : Declared Struct) : Suggestion :=
  { label := s.decl.name.text
    kind := .struct
    detail := some ("(Struct in " ++ s.home.owner ++ ") " ++ s.decl.name.text)
    insertion := some (.plain s.decl.name.text) }

def ofEnum (e : Declared Enum) : Suggestion :=
  { label := e.decl.name.text
    kind := .enum
    detail := some ("(Enum in " ++ e.home.owner ++ ") " ++ e.decl.name.text)
    insertion := some (.plain e.decl.name.text) }

def contractLabel : ContractKind → String
  | .contract => "Contract"
  | .library => "Library"
  | .interface => "Interface"

def ofContract (c : Declared Contract) : Suggestion :=
  let name := c.decl.name.text
  let opening := if c.decl.kind = .interface then "( " else "("
  { label := name
    kind := if c.decl.kind = .interface then .interface else .contract
    detail := some (opening ++ contractLabel c.decl.kind ++ " : " ++ name ++ ") ")
    insertion := some (.plain name) }

def ofBuiltin (b : Builtin) : Suggestion :=
  match b.arguments with
  | some arguments =>
    { label := b.name
      kind := .method
      detail := some b.detail
      insertion := some (.snippet (.call b.name arguments ";")) }
  | none => { label := b.name, kind := .property, detail := some b.detail }

def ofMember : MemberRef → Suggestion
  | .function f isExtension => ofFunction f isExtension
  | .event e => ofEvent e
  | .variable v => ofField v
  | .enumValue e value =>
    { label := value.text
      kind := .enumMember
      detail := some (e.decl.name.text ++ "." ++ value.text) }
  | .builtin b => ofBuiltin b

def ofFile (rules : ImportRules) (document file : Path) : Suggestion :=
  let path := rules.importFor file document
  { label := path
    kind := .reference
    detail := some file.toSlash
    insertion := some (.plain ("\"" ++ path ++ "\";")) }

end Suggestion

/-- One suggestion for each source file under the root; none if the root cannot be listed. -/
def ImportRules.offers (rules : ImportRules) (document : Path) : List Suggestion :=
  match rules.store.list rules.root with
  | .ok files => (Store.dropRepeats files).map (Suggestion.ofFile rules document)
  | .error _ => []

end SolidityCompass
