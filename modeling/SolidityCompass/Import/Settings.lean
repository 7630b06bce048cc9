import SolidityCompass.Import.Config
import SolidityCompass.Import.Json

/-!
# Editor settings

An editor hands over its settings as JSON, either the whole settings with a key `solidity` or the
value of that key alone. They change the defaults of a configuration. The settings may be written
as an object or, shorter, as the array of the object's values.
-/

namespace SolidityCompass

structure Settings where
  dependencies : Option String
  contracts : Option String
  remappings : List String
deriving Repr, DecidableEq, Inhabited

namespace Settings

def optionalText? : Json → Option (Option String)
  | .null => some none
  | .string text => some (some text)
  | _ => none

def text? : Json → Option String
  | .string text => some text
  | _ => none

def texts? : Json → Option (List String)
  | .array items => items.mapM text?
  | _ => none

def orElse {α : Type} (default : α) (read : Json → Option α) : Option Json → Option α
  | none => some default
  | some value => read value

/-- Settings from an object, whose other keys do not count, or from an array of two or three
values. -/
def ofJson? : Json → Option Settings
  | .array [dependencies, contracts] => do
    return ⟨← optionalText? dependencies, ← optionalText? contracts, []⟩
  | .array [dependencies, contracts, remappings] => do
    return ⟨← optionalText? dependencies, ← optionalText? contracts, ← texts? remappings⟩
  | .object fields => do
    let dependencies ← orElse none optionalText?
      ((Json.object fields).get? "packageDefaultDependenciesDirectory")
    let contracts ← orElse none optionalText?
      ((Json.object fields).get? "packageDefaultDependenciesContractsDirectory")
    let remappings ← orElse [] texts? ((Json.object fields).get? "remappings")
    return ⟨dependencies, contracts, remappings⟩
  | _ => none

def parse? (json : String) : Option Settings := do
  let value ← Json.parse? json
  ofJson? ((value.get? "solidity").getD value)

end Settings

def Config.ofSettings (root : Path) (json : String) : Except ProjectError Config :=
  match Settings.parse? json with
  | none => .error .invalidSettings
  | some settings => do
    let remappings ← settings.remappings.mapM Remapping.parse
    let base : Config := {}
    return { base with
      root := root
      dependencies := settings.dependencies.getD base.dependencies
      contracts := settings.contracts.getD base.contracts
      remappings := remappings }

end SolidityCompass
