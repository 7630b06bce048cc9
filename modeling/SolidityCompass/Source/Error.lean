import SolidityCompass.Path.Basic

/-!
# Project errors

What can go wrong while a project is configured and its sources are read.
-/

namespace SolidityCompass

/-- Why a file cannot be read: it is not among the files held in memory, or not on the disk. -/
inductive Absence where
  | notHeld
  | notOnDisk
deriving Repr, DecidableEq, Inhabited

def Absence.text : Absence → String
  | notHeld => "no such source"
  | notOnDisk => "No such file or directory (os error 2)"

inductive ProjectError where
  | unreadable (path : Path) (reason : Absence)
  | missingRoot (path : Path)
  | invalidRemapping (text : String)
  | invalidSettings
deriving Repr, DecidableEq, Inhabited

def ProjectError.message : ProjectError → String
  | unreadable path reason => "failed to read " ++ path.text ++ ": " ++ reason.text
  | missingRoot path => "project root " ++ path.text ++ " is not a directory"
  | invalidRemapping text => "invalid remapping `" ++ text ++ "`: expected `prefix=target`"
  | invalidSettings => "invalid settings"

end SolidityCompass
