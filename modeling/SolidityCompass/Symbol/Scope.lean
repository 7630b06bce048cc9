import SolidityCompass.Symbol.Declared

/-!
# Scopes

The variables that a function makes visible at an offset: its parameters and the locals declared
before. Only the order of declarations counts, so a local of one branch is visible in the branches
that follow.
-/

namespace SolidityCompass

structure Scope where
  function : Declared Function
  locals : List Variable
deriving Repr, DecidableEq, Inhabited

namespace Scope

def at? (f : Declared Function) (offset : Nat) : Option Scope :=
  if f.decl.range.touches offset then
    some ⟨f, f.locals.filter fun v => v.range.stop ≤ offset⟩
  else none

/-- The named variables in the order in which a name is looked up: the latest local first, then
parameters, then return parameters. -/
def visible (scope : Scope) : List Variable :=
  (scope.locals.reverse ++ scope.function.inputs ++ scope.function.outputs).filter fun v =>
    v.name != ""

def find? (scope : Scope) (name : String) : Option Variable :=
  scope.visible.find? fun v => v.name = name

end Scope

end SolidityCompass
