/-!
# Token kinds

Only the words on which the reader of declarations branches are keywords; every other word,
elementary type names included, is an identifier. Brackets come in pairs: a kind `opens` or
`closes` one of the three shapes.
-/

namespace SolidityCompass

inductive Keyword where
  | abstractKw | asKw | calldataKw | constructorKw | contractKw | deleteKw | emitKw | enumKw
  | eventKw | fallbackKw | forKw | fromKw | functionKw | importKw | interfaceKw | isKw
  | libraryKw | mappingKw | memoryKw | modifierKw | newKw | pragmaKw | receiveKw | returnKw
  | returnsKw | storageKw | structKw | usingKw
deriving Repr, DecidableEq, Inhabited

namespace Keyword

def all : List Keyword :=
  [.abstractKw, .asKw, .calldataKw, .constructorKw, .contractKw, .deleteKw, .emitKw, .enumKw,
   .eventKw, .fallbackKw, .forKw, .fromKw, .functionKw, .importKw, .interfaceKw, .isKw,
   .libraryKw, .mappingKw, .memoryKw, .modifierKw, .newKw, .pragmaKw, .receiveKw, .returnKw,
   .returnsKw, .storageKw, .structKw, .usingKw]

theorem mem_all (word : Keyword) : word ∈ all := by
  cases word <;> decide

def text : Keyword → String
  | abstractKw => "abstract"
  | asKw => "as"
  | calldataKw => "calldata"
  | constructorKw => "constructor"
  | contractKw => "contract"
  | deleteKw => "delete"
  | emitKw => "emit"
  | enumKw => "enum"
  | eventKw => "event"
  | fallbackKw => "fallback"
  | forKw => "for"
  | fromKw => "from"
  | functionKw => "function"
  | importKw => "import"
  | interfaceKw => "interface"
  | isKw => "is"
  | libraryKw => "library"
  | mappingKw => "mapping"
  | memoryKw => "memory"
  | modifierKw => "modifier"
  | newKw => "new"
  | pragmaKw => "pragma"
  | receiveKw => "receive"
  | returnKw => "return"
  | returnsKw => "returns"
  | storageKw => "storage"
  | structKw => "struct"
  | usingKw => "using"

def ofText? (word : String) : Option Keyword :=
  all.find? (fun keyword => keyword.text = word)

theorem ofText?_text (word : Keyword) : ofText? word.text = some word := by
  cases word <;> decide

theorem text_of_ofText? {word : String} {keyword : Keyword} (h : ofText? word = some keyword) :
    keyword.text = word := by
  simpa using List.find?_some h

end Keyword

inductive Bracket where
  | paren
  | square
  | brace
deriving Repr, DecidableEq, Inhabited

inductive Kind where
  | whitespace
  | lineComment
  | blockComment
  | ident
  | number
  | string
  | opens (bracket : Bracket)
  | closes (bracket : Bracket)
  | semicolon
  | comma
  | dot
  | eq
  | fatArrow
  | star
  | operator
  | keyword (word : Keyword)
  | error
deriving Repr, DecidableEq, Inhabited

namespace Kind

def label : Kind → String
  | whitespace => "WHITESPACE"
  | lineComment => "LINE_COMMENT"
  | blockComment => "BLOCK_COMMENT"
  | ident => "IDENT"
  | number => "NUMBER"
  | string => "STRING"
  | opens .brace => "L_BRACE"
  | closes .brace => "R_BRACE"
  | opens .square => "L_BRACKET"
  | closes .square => "R_BRACKET"
  | opens .paren => "L_PAREN"
  | closes .paren => "R_PAREN"
  | semicolon => "SEMICOLON"
  | comma => "COMMA"
  | dot => "DOT"
  | eq => "EQ"
  | fatArrow => "FAT_ARROW"
  | star => "STAR"
  | operator => "OPERATOR"
  | keyword word => word.text.toUpper ++ "_KW"
  | error => "ERROR"

def isTrivia : Kind → Bool
  | whitespace | lineComment | blockComment => true
  | _ => false

def isKeyword : Kind → Bool
  | keyword _ => true
  | _ => false

/-- Keywords that name things outside their own construct, as in `address from`. -/
def isContextual : Kind → Bool
  | keyword .fromKw | keyword .fallbackKw | keyword .receiveKw => true
  | _ => false

def isDataLocation : Kind → Bool
  | keyword .memoryKw | keyword .storageKw | keyword .calldataKw => true
  | _ => false

def isName (kind : Kind) : Bool :=
  kind = .ident || kind.isContextual

def isSignificant (kind : Kind) : Bool :=
  !kind.isTrivia && kind != .error

end Kind

end SolidityCompass
