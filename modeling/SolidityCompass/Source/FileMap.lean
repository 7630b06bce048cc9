import SolidityCompass.Path.Basic

/-!
# File maps

Texts held in memory under their paths. Two spellings of one path are one key: writing to a key
that is already there keeps its spelling and replaces the text.
-/

namespace SolidityCompass

/-- Paths with their texts, in the order in which the paths were first added. -/
structure FileMap where
  entries : List (Path × String)
deriving Repr, DecidableEq, Inhabited

namespace FileMap

def empty : FileMap := ⟨[]⟩

def paths (files : FileMap) : List Path :=
  files.entries.map Prod.fst

def size (files : FileMap) : Nat :=
  files.entries.length

def get? (files : FileMap) (path : Path) : Option String :=
  (files.entries.find? fun entry => entry.1.same path).map Prod.snd

def contains (files : FileMap) (path : Path) : Bool :=
  files.entries.any fun entry => entry.1.same path

def insert (files : FileMap) (path : Path) (text : String) : FileMap :=
  if files.contains path then
    ⟨files.entries.map fun entry => if entry.1.same path then (entry.1, text) else entry⟩
  else ⟨files.entries ++ [(path, text)]⟩

def erase (files : FileMap) (path : Path) : FileMap :=
  ⟨files.entries.filter fun entry => !entry.1.same path⟩

def ofList (entries : List (Path × String)) : FileMap :=
  entries.foldl (fun files entry => files.insert entry.1 entry.2) empty

def hasDirectory (files : FileMap) (path : Path) : Bool :=
  files.paths.any fun file => !file.same path && file.isUnder path

def sourcesUnder (files : FileMap) (directory : Path) : List Path :=
  files.paths.filter fun file => file.isUnder directory && file.extension? = some "sol"

end FileMap

end SolidityCompass
