import SolidityCompass.Import.Resolver
import SolidityCompass.Outline.Read
import SolidityCompass.Symbol.Declared

/-!
# Symbol tables

A symbol table holds a document and all files that it imports, directly or through others. The
document is file zero. Contracts are numbered through all files, and the first declaration of a
name is the one that the name means.

The lists of a table are shared by all files: they grow at their ends, declaration by declaration.
`Symbols` is what they hold at any moment, and `Table` is what they hold between two files, when
names are indexed and every declaration is at home in a file of the table.
-/

namespace SolidityCompass

structure Link where
  literal : ByteRange
  target : Path
deriving Repr, DecidableEq, Inhabited

structure SourceFile where
  id : Nat
  path : Path
  text : String
deriving Repr, DecidableEq, Inhabited

/-- `byName` gives the number of the contract that a name means, and `links` the number of the
importing file with each import. -/
structure Symbols where
  files : List SourceFile
  contracts : List (Declared Contract)
  byName : List (String × Nat)
  structs : List (Declared Struct)
  enums : List (Declared Enum)
  links : List (Nat × Link)
deriving Repr, DecidableEq, Inhabited

namespace Symbols

def empty : Symbols := ⟨[], [], [], [], [], []⟩

/-- A name that is known already keeps its number. -/
def addContract (symbols : Symbols) (c : Declared Contract) : Symbols :=
  { symbols with
    contracts := symbols.contracts ++ [c]
    byName :=
      if (symbols.byName.lookup c.decl.name.text).isSome then symbols.byName
      else symbols.byName ++ [(c.decl.name.text, symbols.contracts.length)] }

def addStruct (symbols : Symbols) (s : Declared Struct) : Symbols :=
  { symbols with structs := symbols.structs ++ [s] }

def addEnum (symbols : Symbols) (e : Declared Enum) : Symbols :=
  { symbols with enums := symbols.enums ++ [e] }

def addLink (symbols : Symbols) (file : Nat) (link : Link) : Symbols :=
  { symbols with links := symbols.links ++ [(file, link)] }

def addFile (symbols : Symbols) (file : SourceFile) : Symbols :=
  { symbols with files := symbols.files ++ [file] }

def homes (symbols : Symbols) : List Nat :=
  symbols.contracts.map (·.home.file) ++ symbols.structs.map (·.home.file) ++
    symbols.enums.map (·.home.file)

def Indexed (symbols : Symbols) : Prop :=
  ∀ name, symbols.byName.lookup name =
    symbols.contracts.findIdx? fun c => c.decl.name.text = name

section indexed

variable {symbols : Symbols} (h : symbols.Indexed)

include h

theorem Indexed.addStruct (s : Declared Struct) : (symbols.addStruct s).Indexed := h

theorem Indexed.addEnum (e : Declared Enum) : (symbols.addEnum e).Indexed := h

theorem Indexed.addLink (file : Nat) (link : Link) : (symbols.addLink file link).Indexed := h

theorem Indexed.addFile (file : SourceFile) : (symbols.addFile file).Indexed := h

theorem Indexed.addContract (c : Declared Contract) :
    (symbols.addContract c).Indexed := by
  intro name
  have hknown := h c.decl.name.text
  simp only [Symbols.addContract, List.findIdx?_append, ← h name]
  by_cases hname : c.decl.name.text = name
  · subst hname
    cases hfound : symbols.byName.lookup c.decl.name.text with
    | none => simp [hfound, List.lookup_append]
    | some id => simp [hfound]
  · have hnew : List.findIdx? (fun c => decide (c.decl.name.text = name)) [c] = none := by
      simp [hname]
    rw [hnew, Option.map_none, Option.or_none]
    split
    · rfl
    · have hne : (name == c.decl.name.text) = false := by simp [Ne.symm hname]
      simp [List.lookup_append, List.lookup_cons, hne]

end indexed

structure WellFormed (symbols : Symbols) : Prop where
  indexed : symbols.Indexed
  homed : ∀ home ∈ symbols.homes, home < symbols.files.length

theorem wellFormed_empty : empty.WellFormed := by
  refine ⟨fun name => rfl, fun home h => ?_⟩
  simp [homes, empty] at h

end Symbols

structure Table extends Symbols where
  wellFormed : toSymbols.WellFormed
deriving Repr, DecidableEq

namespace Table

def empty : Table := ⟨.empty, Symbols.wellFormed_empty⟩

instance : Inhabited Table := ⟨empty⟩

def document? (table : Table) : Option SourceFile :=
  table.files.head?

def sourceAt? (table : Table) (path : Path) : Option SourceFile :=
  table.files.find? fun file => file.path.same path

def fileAt? (table : Table) (path : Path) : Option Nat :=
  (table.sourceAt? path).map SourceFile.id

def contractNamed? (table : Table) (name : String) : Option Nat :=
  table.byName.lookup name

theorem contractNamed?_eq_findIdx? (table : Table) (name : String) :
    table.contractNamed? name = table.contracts.findIdx? fun c => c.decl.name.text = name :=
  table.wellFormed.indexed name

def contractAt? (table : Table) (offset : Nat) : Option Nat :=
  table.contracts.findIdx? fun c => c.home.file = 0 && c.decl.range.touches offset

end Table

end SolidityCompass
