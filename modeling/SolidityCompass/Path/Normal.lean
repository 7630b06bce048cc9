import SolidityCompass.Path.Basic

/-!
# Normal and relative paths

`normalize` resolves `.` and `..` by the text alone. In a normal path a `..` stands only in front
of a relative path. `relativeTo` leads from a directory to a path.
-/

namespace SolidityCompass

namespace Component

def text : Component → String
  | root => "/"
  | current => "."
  | parent => ".."
  | name text => text

end Component

namespace Path

def ofComponents : List Component → Path
  | .root :: rest => ⟨"/" ++ "/".intercalate (rest.map Component.text)⟩
  | components => ⟨"/".intercalate (components.map Component.text)⟩

/-- Adds a component to a normal path whose components are given last first. A `..` takes a name
away, has no effect at the root, and is kept in front of a relative path. -/
def normalStep (done : List Component) : Component → List Component
  | .current => done
  | .parent =>
    match done with
    | .name _ :: rest => rest
    | .root :: _ => done
    | _ => .parent :: done
  | component => component :: done

def normalComponents (p : Path) : List Component :=
  (p.components.foldl normalStep []).reverse

def normalize (p : Path) : Path :=
  ofComponents p.normalComponents

def slashed (components : List Component) : String :=
  (ofComponents (components.filter (· != .current))).text

def toSlash (p : Path) : String :=
  slashed p.components

def dropCommon : List Component → List Component → List Component × List Component
  | a :: as, b :: bs => if a = b then dropCommon as bs else (a :: as, b :: bs)
  | as, bs => (as, bs)

/-- The path that leads from the directory `base` to `target`. From a relative directory to an
absolute path there is only the absolute path itself. -/
def relativeTo (target base : Path) : Path :=
  match dropCommon base.normalComponents target.normalComponents with
  | (_, .root :: rest) => ofComponents (.root :: rest)
  | (up, down) => ofComponents (up.map (fun _ => .parent) ++ down)

end Path

end SolidityCompass
