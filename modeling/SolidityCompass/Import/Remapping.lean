import SolidityCompass.Path.Normal
import SolidityCompass.Source.Error
import SolidityCompass.Text.CharClass
import SolidityCompass.Text.Lines

/-!
# Remappings

A remapping `context:stem=target` replaces the stem at the front of an import by a target
directory, for importers under the context. It works in both directions: `resolve?` leads to a
file, and `importFor?` leads back from a file.
-/

namespace SolidityCompass

structure Remapping where
  context : Option String
  stem : String
  target : String
deriving Repr, DecidableEq, Inhabited

def cutAt? (mark : Char) (cs : List Char) : Option (List Char × List Char) :=
  match cs.dropWhile (· != mark) with
  | [] => none
  | _ :: rest => some (cs.takeWhile (· != mark), rest)

theorem cutAt?_append {mark : Char} {front : List Char} (h : mark ∉ front) (back : List Char) :
    cutAt? mark (front ++ mark :: back) = some (front, back) := by
  have hfront : ∀ c ∈ front, (c != mark) = true := by
    intro c hc
    simpa using fun heq : c = mark => h (heq ▸ hc)
  rw [cutAt?, List.dropWhile_append_of_pos hfront, List.takeWhile_append_of_pos hfront]
  simp

theorem cutAt?_of_not_mem {mark : Char} {cs : List Char} (h : mark ∉ cs) :
    cutAt? mark cs = none := by
  have hne : ∀ c ∈ cs, (c != mark) = true := by
    intro c hc
    simpa using fun heq : c = mark => h (heq ▸ hc)
  have hcs : (cs ++ []).dropWhile (· != mark) = [] := List.dropWhile_append_of_pos hne
  rw [List.append_nil] at hcs
  rw [cutAt?, hcs]

theorem eq_of_cutAt? {mark : Char} {cs front back : List Char}
    (h : cutAt? mark cs = some (front, back)) : cs = front ++ mark :: back ∧ mark ∉ front := by
  by_cases hmem : mark ∈ cs
  · obtain ⟨left, right, rfl, hleft⟩ := List.eq_append_cons_of_mem hmem
    rw [cutAt?_append hleft] at h
    cases h
    exact ⟨rfl, hleft⟩
  · rw [cutAt?_of_not_mem hmem] at h
    cases h

namespace Remapping

/-- Reads `stem=target` or `context:stem=target`. Blanks around the three parts are dropped, an
empty context counts as none, and neither stem nor target may be empty. -/
def parse (text : String) : Except ProjectError Remapping :=
  match cutAt? '=' (trimBlanks text.toList) with
  | none => .error (.invalidRemapping text)
  | some (left, target) =>
    let (context, stem) :=
      match cutAt? ':' left with
      | some (context, stem) => (trimBlanks context, trimBlanks stem)
      | none => ([], trimBlanks left)
    let target := trimBlanks target
    if stem.isEmpty || target.isEmpty then .error (.invalidRemapping text)
    else
      .ok ⟨if context.isEmpty then none else some (String.ofList context),
        String.ofList stem, String.ofList target⟩

def render (r : Remapping) : String :=
  ((r.context.map (· ++ ":")).getD "") ++ r.stem ++ "=" ++ r.target

/-- The remappings of a file, one a line. Blank lines, comments and lines that are no remapping
are left out. -/
def parseFile (text : String) : List Remapping :=
  (Lines.split text.toList).filterMap fun line =>
    let line := trimBlanks line
    if line.isEmpty || line.head? = some '#' then none
    else (parse (String.ofList line)).toOption

def directory (r : Remapping) (root : Path) : Path :=
  (root.join r.target).normalize

def appliesTo (r : Remapping) (importer root : Path) : Bool :=
  match r.context with
  | none => true
  | some context => importer.isUnder (root.join context).normalize

def resolve? (r : Remapping) (path : String) (root : Path) : Option Path :=
  if r.stem.toList.isPrefixOf path.toList then
    let rest := String.ofList (path.toList.drop r.stem.toList.length)
    some (root.join (r.target ++ rest)).normalize
  else none

def importFor? (r : Remapping) (file root : Path) : Option String :=
  (file.remainder? (r.directory root)).map fun rest =>
    if r.stem.toList.getLast? = some '/' then r.stem ++ Path.slashed rest
    else r.stem ++ "/" ++ Path.slashed rest

end Remapping

end SolidityCompass
