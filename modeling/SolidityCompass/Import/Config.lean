import SolidityCompass.Import.Remapping

/-!
# Project configuration

Where the sources of a project lie and how its imports are remapped.
-/

namespace SolidityCompass

/-- The project root, which may be empty, the workspace folders that can stand in for it, the
directory of dependency packages, the directory of sources inside a package, and the configured
remappings in the order in which they are tried. -/
structure Config where
  root : Path := ⟨""⟩
  folders : List Path := []
  dependencies : String := "lib"
  contracts : String := "src"
  remappings : List Remapping := []
deriving Repr, DecidableEq, Inhabited

/-- The root for requests on a document. A document outside the configured root belongs to the
first workspace folder that holds it; without any, the configured root stays, and without a
configured root the directory of the document serves. -/
def Config.rootFor (config : Config) (document : Path) : Path :=
  if config.root.text != "" && document.isUnder config.root then config.root
  else
    match config.folders.find? document.isUnder with
    | some folder => folder
    | none =>
      if config.root.text != "" then config.root
      else document.parent?.getD ⟨""⟩

end SolidityCompass
