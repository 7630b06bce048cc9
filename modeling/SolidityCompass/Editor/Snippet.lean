/-!
# Snippets

A snippet is a text with numbered slots that the editor visits in turn; each slot holds a
default text until it is overwritten.
-/

namespace SolidityCompass

inductive SnippetPart where
  | text (content : String)
  | slot (number : Nat) (default : String)
deriving Repr, DecidableEq, Inhabited

structure Snippet where
  parts : List SnippetPart
deriving Repr, DecidableEq, Inhabited

namespace SnippetPart

/-- A slot is written with a dollar sign, its number and its default in braces. -/
def render : SnippetPart → String
  | .text content => content
  | .slot number default => "$\x7b" ++ toString number ++ ":" ++ default ++ "\x7d"

end SnippetPart

namespace Snippet

def render (snippet : Snippet) : String :=
  String.join (snippet.parts.map SnippetPart.render)

def slotsFrom : (first : Nat) → List String → List SnippetPart
  | _, [] => []
  | first, [last] => [.slot first last]
  | first, default :: rest => .slot first default :: .text ", " :: slotsFrom (first + 1) rest

def call (name : String) (arguments : List String) (ending : String) : Snippet :=
  ⟨.text (name ++ "(") :: slotsFrom 1 arguments ++ [.text (")" ++ ending)]⟩

end Snippet

end SolidityCompass
