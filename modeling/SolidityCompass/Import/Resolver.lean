import SolidityCompass.Import.Config
import SolidityCompass.Source.Store

/-!
# Resolving imports

An import string leads to a file by the first of three rules that applies: packages in the
dependency directory, remappings, and paths relative to the importing document. `importFor`
follows the same rules backwards.
-/

namespace SolidityCompass

structure ImportRules where
  root : Path
  dependencies : Path
  contracts : String
  remappings : List Remapping
  store : Store
deriving Repr, Inhabited

namespace ImportRules

def fileRemappings (root : Path) (store : Store) : List Remapping :=
  if store.isFile (root.join "remappings.txt") then
    match store.read (root.join "remappings.txt") with
    | .ok text => Remapping.parseFile text
    | .error _ => []
  else []

/-- The rules for requests on a document. Configured remappings come before those of the file in
the root. -/
def forDocument (config : Config) (document : Path) (store : Store) : ImportRules :=
  let root := (config.rootFor document).normalize
  { root := root
    dependencies := (root.join config.dependencies).normalize
    contracts := config.contracts
    remappings := config.remappings ++ fileRemappings root store
    store := store }

/-- An import `package/rest` of a package in the dependency directory. The file is looked for in
the directory of the package's sources first. -/
def packageFile? (rules : ImportRules) (path : String) : Option Path :=
  if path.toList.head? = some '.' then none
  else
    match cutAt? '/' path.toList with
    | none => none
    | some (package, rest) =>
      let package := rules.dependencies.join (String.ofList package)
      if rules.store.isDirectory package then
        let inside := ((package.join rules.contracts).join (String.ofList rest)).normalize
        if rules.contracts != "" && rules.store.isFile inside then some inside
        else some (package.join (String.ofList rest)).normalize
      else none

def remappedFile? (rules : ImportRules) (path : String) (importer : Path) : Option Path :=
  (rules.remappings.filter fun r => r.appliesTo importer rules.root).findSome? fun r =>
    r.resolve? path rules.root

def directoryOf (rules : ImportRules) (document : Path) : Path :=
  document.parent?.getD rules.root

/-- Imports with `./` and `../` start at the importer's directory. Others do so if there is such a
file, and start at the root otherwise. -/
def relativeFile (rules : ImportRules) (path : String) (importer : Path) : Path :=
  let beside := ((rules.directoryOf importer).join path).normalize
  if ['.', '/'].isPrefixOf path.toList || ['.', '.', '/'].isPrefixOf path.toList ||
      rules.store.isFile beside then
    beside
  else (rules.root.join path).normalize

def resolve (rules : ImportRules) (path : String) (importer : Path) : Path :=
  ((rules.packageFile? path).or (rules.remappedFile? path importer)).getD
    (rules.relativeFile path importer)

def importFor (rules : ImportRules) (file document : Path) : String :=
  match file.remainder? rules.dependencies with
  | some rest => Path.slashed rest
  | none =>
    let remapped := (rules.remappings.filter fun r => r.appliesTo document rules.root).findSome?
      fun r => r.importFor? file rules.root
    match remapped with
    | some path => path
    | none =>
      let relative := (file.relativeTo (rules.directoryOf document)).toSlash
      if ['.', '.', '/'].isPrefixOf relative.toList then relative else "./" ++ relative

end ImportRules

end SolidityCompass
