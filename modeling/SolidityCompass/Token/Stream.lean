import SolidityCompass.Text.ByteRange
import SolidityCompass.Token.Lexeme

/-!
# Token streams

`tokenize` cuts a text into tokens that follow each other without a gap: each one starts where
the one before it stopped, and nothing of the text is left out.
-/

namespace SolidityCompass

structure Token where
  kind : Kind
  text : String
  range : ByteRange
deriving Repr, DecidableEq, Inhabited

namespace Token

def first (start : Nat) (c : Char) (cs : List Char) : Token :=
  let chars := c :: cs.take (lexeme c cs).2
  ⟨(lexeme c cs).1, String.ofList chars, ⟨start, start + byteLength chars⟩⟩

end Token

def tokensFrom (start : Nat) : List Char → List Token
  | [] => []
  | c :: cs =>
    Token.first start c cs ::
      tokensFrom (Token.first start c cs).range.stop (cs.drop (lexeme c cs).2)
termination_by cs => cs.length

def tokenize (text : String) : List Token :=
  tokensFrom 0 text.toList

end SolidityCompass
