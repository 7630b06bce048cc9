import SolidityCompass.Text.ByteRange
import SolidityCompass.Token.Kind

/-!
# Syntax errors

A syntax error is a cause and the place where it was met. The wording of each cause is given
once, by `Fault.message`.
-/

namespace SolidityCompass

/-- What a missing name would have named. -/
inductive NameRole where
  | contract
  | function
  | event
  | struct
  | enum
  | field
deriving Repr, DecidableEq, Inhabited

def NameRole.text : NameRole → String
  | contract => "contract name"
  | function => "function name"
  | event => "event name"
  | struct => "struct name"
  | enum => "enum name"
  | field => "field name"

inductive Block where
  | contractBody
  | functionBody
  | struct
  | enum
deriving Repr, DecidableEq, Inhabited

def Block.text : Block → String
  | contractBody => "contract body"
  | functionBody => "function body"
  | struct => "struct"
  | enum => "enum"

inductive Fault where
  | unexpectedCharacter
  | unexpectedBrace
  | expectedToken (kind : Kind)
  | expectedName (role : NameRole)
  | importWithoutPath
  | expectedContract
  | expectedBase
  | expectedContractBody
  | expectedMember
  | expectedVariableName
  | expectedParameterType
  | expectedField
  | expectedEnumMember
  | expectedLibrary
  | expectedFor
  | expectedTarget
  | unterminated (block : Block)
deriving Repr, DecidableEq, Inhabited

def Fault.message : Fault → String
  | unexpectedCharacter => "unexpected character"
  | unexpectedBrace => "unexpected `\x7d`"
  | expectedToken kind => "expected " ++ kind.label
  | expectedName role => "expected " ++ role.text
  | importWithoutPath => "import without a path"
  | expectedContract => "expected `contract`"
  | expectedBase => "expected base contract name"
  | expectedContractBody => "expected contract body"
  | expectedMember => "expected contract member"
  | expectedVariableName => "expected state variable name"
  | expectedParameterType => "expected parameter type"
  | expectedField => "expected struct field"
  | expectedEnumMember => "expected enum member"
  | expectedLibrary => "expected library name"
  | expectedFor => "expected `for`"
  | expectedTarget => "expected type after `for`"
  | unterminated block => "unterminated " ++ block.text

structure SyntaxError where
  fault : Fault
  range : ByteRange
deriving Repr, DecidableEq, Inhabited

namespace SyntaxError

def message (e : SyntaxError) : String :=
  e.fault.message

def describe (e : SyntaxError) : String :=
  e.message ++ " at " ++ toString e.range.start ++ ".." ++ toString e.range.stop

def summary (errors : List SyntaxError) : String :=
  "source has " ++ toString errors.length ++ " syntax error(s), first: " ++
    ((errors.head?.map describe).getD "")

end SyntaxError

end SolidityCompass
