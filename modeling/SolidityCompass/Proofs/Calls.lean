import SolidityCompass.Proofs.Items
import SolidityCompass.Proofs.Speculation

/-!
# Which readers are called

Reading an outline is one call of the reader of items, and each reader calls others. `Reader` names
them, with one name for a loop that a reader goes through, so that the next round of a loop is a
call of the loop by itself. `Call.exit` is the reading that a call leaves behind and `Call.subcalls`
are the calls that it makes, in their order. `Made` collects all calls that are made while a text is
read.
-/

namespace SolidityCompass

/-- The readers of an outline, and the loops in them. -/
inductive Reader where
  | items
  | item
  | fileImport
  | contract
  | bases
  | contractBody
  | member
  | stateVariable
  | variableName
  | function
  | functionHeader
  | parameterList
  | parameters
  | parameter
  | functionBody
  | walk (inner : Nat) (place : Cursor.Place)
  | declarations
  | tuple
  | tupleHeads
  | declarationHead
  | event
  | struct
  | fields
  | field
  | enum
  | enumMembers
  | usingFor
  | typeName
  | mappingType
  | functionType
  | arraySuffixes (element : TypeName)
  | path
  | skipGroup
  | skipItem
deriving Repr, DecidableEq

structure Call where
  reader : Reader
  entry : Reading
deriving Repr, DecidableEq

namespace Cursor

def baseType (c : Cursor) : Option TypeName × Cursor :=
  match c.kind? with
  | some (.keyword .mappingKw) => c.mappingType
  | some (.keyword .functionKw) => c.functionType
  | _ =>
    match c.namedType? with
    | none => (none, c)
    | some (type, d) => (some type, d)

theorem typeName_eq_withSuffixes (c : Cursor) : c.typeName = withSuffixes c.baseType := by
  unfold baseType
  split
  next hk => exact typeName_of_mapping hk
  next hk => exact typeName_of_function hk
  next hm hf =>
    split
    next hnamed => exact typeName_of_none hm hf hnamed
    next type d hnamed => exact typeName_of_named hm hf hnamed

end Cursor

namespace Call

def exit : Call → Reading
  | ⟨.items, r⟩ => r.items.2
  | ⟨.item, r⟩ => r.item.2
  | ⟨.fileImport, r⟩ => r.fileImport.2
  | ⟨.contract, r⟩ => r.contract.2
  | ⟨.bases, r⟩ => r.bases.2
  | ⟨.contractBody, r⟩ => (r.block .contractBody Reading.member Reading.passes_member).2
  | ⟨.member, r⟩ => r.member.2
  | ⟨.stateVariable, r⟩ => r.stateVariable.2
  | ⟨.variableName, r⟩ => r.goTo r.cursor.variableName.2
  | ⟨.function, r⟩ => r.function.2
  | ⟨.functionHeader, r⟩ => (r.functionHeader []).2
  | ⟨.parameterList, r⟩ => r.parameterList.2
  | ⟨.parameters, r⟩ => r.parameters.2
  | ⟨.parameter, r⟩ => r.parameter.2
  | ⟨.functionBody, r⟩ => r.functionBody.2
  | ⟨.walk inner place, r⟩ => r.goTo (r.cursor.scanBody inner place).cursor
  | ⟨.declarations, r⟩ => r.tryDeclarations.2
  | ⟨.tuple, r⟩ => r.goTo r.cursor.advance.tupleHeads.2
  | ⟨.tupleHeads, r⟩ => r.goTo r.cursor.tupleHeads.2
  | ⟨.declarationHead, r⟩ => r.goTo r.cursor.declarationHead.2
  | ⟨.event, r⟩ => r.event.2
  | ⟨.struct, r⟩ => r.struct.2
  | ⟨.fields, r⟩ => (r.block .struct Reading.field Reading.passes_field).2
  | ⟨.field, r⟩ => r.field.2
  | ⟨.enum, r⟩ => r.enum.2
  | ⟨.enumMembers, r⟩ => r.enumMembers.2
  | ⟨.usingFor, r⟩ => r.usingFor.2
  | ⟨.typeName, r⟩ => r.typeName.2
  | ⟨.mappingType, r⟩ => r.goTo r.cursor.mappingType.2
  | ⟨.functionType, r⟩ => r.goTo r.cursor.functionType.2
  | ⟨.arraySuffixes element, r⟩ => r.goTo (r.cursor.arraySuffixes element).2
  | ⟨.path, r⟩ => r.goTo ((r.cursor.path?.map Prod.snd).getD r.cursor)
  | ⟨.skipGroup, r⟩ => r.goTo r.cursor.skipGroup.2
  | ⟨.skipItem, r⟩ => r.skipItem

def ofBlock (role : NameRole) (body : Reader) (r : Reading) : List Call :=
  match r.advance.expectName role with
  | (none, s) => [⟨.skipItem, s⟩]
  | (some _, s) =>
    if s.sees (.opens .brace) then [⟨body, s.advance⟩]
    else [⟨.skipItem, s.report (.expectedToken (.opens .brace))⟩]

def ofParts (part loop : Reader) (r : Reading) : List Call :=
  match r.kind? with
  | none => []
  | some kind =>
    if kind = .closes .brace then [] else [⟨part, r⟩, ⟨loop, exit ⟨part, r⟩⟩]

def ofItems (r : Reading) : List Call :=
  match r.kind? with
  | none => []
  | some _ => [⟨.item, r⟩, ⟨.items, r.item.2⟩]

def ofItem (r : Reading) : List Call :=
  match r.kind? with
  | some (.keyword .importKw) => [⟨.fileImport, r⟩]
  | some (.keyword .abstractKw) | some (.keyword .contractKw) | some (.keyword .libraryKw)
  | some (.keyword .interfaceKw) => [⟨.contract, r⟩]
  | some (.keyword .structKw) => [⟨.struct, r⟩]
  | some (.keyword .enumKw) => [⟨.enum, r⟩]
  | some (.closes .brace) => []
  | _ => [⟨.skipItem, r⟩]

def ofContract (r : Reading) : List Call :=
  match r.atKind.contractKind? with
  | none => [⟨.skipItem, r.atKind.report .expectedContract⟩]
  | some _ =>
    match r.atKind.advance.expectName .contract with
    | (none, s) => [⟨.skipItem, s⟩]
    | (some _, s) =>
      (if s.sees (.keyword .isKw) then [⟨.bases, s.advance⟩] else []) ++
        match s.baseList.2.enterBody with
        | (false, _) => []
        | (true, t) => [⟨.contractBody, t⟩]

def ofBases (r : Reading) : List Call :=
  ⟨.path, r⟩ ::
    match r.cursor.path? with
    | none => []
    | some (_, c) =>
      let d := if c.sees (.opens .paren) then c.skipGroup.2 else c
      (if c.sees (.opens .paren) then [⟨.skipGroup, r.goTo c⟩] else []) ++
        if d.sees .comma then [⟨.bases, r.goTo d.advance⟩] else []

def ofMember (r : Reading) : List Call :=
  match r.kind? with
  | some (.keyword .functionKw) | some (.keyword .constructorKw) => [⟨.function, r⟩]
  | some (.keyword .eventKw) => [⟨.event, r⟩]
  | some (.keyword .structKw) => [⟨.struct, r⟩]
  | some (.keyword .enumKw) => [⟨.enum, r⟩]
  | some (.keyword .usingKw) => [⟨.usingFor, r⟩]
  | some .semicolon => []
  | _ =>
    if (r.sees (.keyword .fallbackKw) || r.sees (.keyword .receiveKw)) &&
        r.cursor.kindAfter? 1 == some (.opens .paren) then [⟨.function, r⟩]
    else if r.isPassedOver then [⟨.skipItem, r⟩]
    else [⟨.stateVariable, r⟩]

def ofStateVariable (r : Reading) : List Call :=
  ⟨.typeName, r⟩ ::
    match r.typeName with
    | (none, s) => [⟨.skipItem, s.report .expectedMember⟩]
    | (some _, s) =>
      ⟨.variableName, s⟩ ::
        match s.cursor.variableName with
        | (none, c) => [⟨.skipItem, (s.goTo c).report .expectedVariableName⟩]
        | (some _, c) => [⟨.skipItem, s.goTo c⟩]

def ofVariableName (r : Reading) : List Call :=
  match r.cursor.name? with
  | none => []
  | some (_, c) =>
    if c.seesAny Cursor.endsVariableName || !r.sees .ident then []
    else if r.advance.sees (.opens .paren) then
      [⟨.skipGroup, r.advance⟩, ⟨.variableName, exit ⟨.skipGroup, r.advance⟩⟩]
    else [⟨.variableName, r.advance⟩]

def ofFunction (r : Reading) : List Call :=
  match r.functionName with
  | (none, s) => [⟨.skipItem, s⟩]
  | (some _, s) =>
    ⟨.parameterList, s⟩ ::
      match s.parameterList with
      | (none, t) => [⟨.skipItem, t⟩]
      | (some _, t) =>
        ⟨.functionHeader, t⟩ ::
          if (t.functionHeader []).2.sees (.opens .brace) then
            [⟨.functionBody, (t.functionHeader []).2⟩]
          else []

def ofFunctionHeader (r : Reading) : List Call :=
  match r.kind? with
  | none => []
  | some kind =>
    if kind = .keyword .returnsKw then
      [⟨.parameterList, r.advance⟩, ⟨.functionHeader, r.advance.parameterList.2⟩]
    else if kind = .opens .paren then
      [⟨.skipGroup, r⟩, ⟨.functionHeader, exit ⟨.skipGroup, r⟩⟩]
    else if Reading.endsHeader kind then []
    else [⟨.functionHeader, r.advance⟩]

def ofParameterList (r : Reading) : List Call :=
  if r.sees (.opens .paren) then [⟨.parameters, r.advance⟩] else []

def ofParameters (r : Reading) : List Call :=
  if r.cursor.rest.isEmpty || r.sees (.closes .paren) then []
  else
    ⟨.parameter, r⟩ ::
      match r.parameter.2.cursor.eat? .comma with
      | none => []
      | some c => [⟨.parameters, r.parameter.2.goTo c⟩]

def ofWalk (inner : Nat) (place : Cursor.Place) (r : Reading) : List Call :=
  let s := r.goTo (r.cursor.declarationsAt place).2
  (if place = .fresh then [⟨.declarations, r⟩] else []) ++
    match s.cursor.rest with
    | [] => []
    | t :: _ =>
      if t.kind = .closes .brace && inner = 0 then []
      else [⟨.walk (Cursor.blocksAfter inner t.kind) (place.after t), s.advance⟩]

def ofDeclarations (r : Reading) : List Call :=
  if r.sees (.opens .paren) then [⟨.tuple, r⟩] else [⟨.declarationHead, r⟩]

def ofTupleHeads (r : Reading) : List Call :=
  match r.kind? with
  | some .comma => [⟨.tupleHeads, r.advance⟩]
  | some (.closes .paren) => []
  | _ =>
    ⟨.declarationHead, r⟩ ::
      match r.cursor.declarationHead with
      | (none, _) => []
      | (some _, c) =>
        if c.seesAny Cursor.separatesHeads then [⟨.tupleHeads, r.goTo c⟩] else []

def ofDeclarationHead (r : Reading) : List Call :=
  if r.cursor.rest.head?.any Cursor.startsDeclaration then [⟨.typeName, r⟩] else []

def ofEvent (r : Reading) : List Call :=
  match r.advance.expectName .event with
  | (none, s) => [⟨.skipItem, s⟩]
  | (some _, s) =>
    ⟨.parameterList, s⟩ ::
      match s.parameterList with
      | (none, t) => [⟨.skipItem, t⟩]
      | (some _, _) => []

def ofField (r : Reading) : List Call :=
  ⟨.typeName, r⟩ ::
    match r.typeName with
    | (none, s) => [⟨.skipItem, s.report .expectedField⟩]
    | (some _, s) =>
      match s.expectName .field with
      | (none, t) => [⟨.skipItem, t⟩]
      | (some _, _) => []

def ofEnumMembers (r : Reading) : List Call :=
  match r.kind? with
  | none => []
  | some kind =>
    if kind ≠ .closes .brace ∧ r.enumMember.2.sees .comma then
      [⟨.enumMembers, r.enumMember.2.advance⟩]
    else []

def ofUsingFor (r : Reading) : List Call :=
  if r.advance.sees (.opens .brace) then
    [⟨.skipGroup, r.advance⟩, ⟨.skipItem, exit ⟨.skipGroup, r.advance⟩⟩]
  else
    ⟨.path, r.advance⟩ ::
      match r.advance.cursor.path? with
      | none => [⟨.skipItem, r.advance.report .expectedLibrary⟩]
      | some (_, c) =>
        match c.eat? (.keyword .forKw) with
        | none => [⟨.skipItem, (r.goTo c).report .expectedFor⟩]
        | some d =>
          if d.sees .star then []
          else
            ⟨.typeName, r.goTo d⟩ ::
              match (r.goTo d).typeName with
              | (none, s) => [⟨.skipItem, s.report .expectedTarget⟩]
              | (some _, _) => []

def ofTypeName (r : Reading) : List Call :=
  (match r.kind? with
    | some (.keyword .mappingKw) => [⟨.mappingType, r⟩]
    | some (.keyword .functionKw) => [⟨.functionType, r⟩]
    | _ => if r.cursor.seesAny Kind.isName then [⟨.path, r⟩] else []) ++
    match r.cursor.baseType with
    | (none, _) => []
    | (some element, c) => [⟨.arraySuffixes element, r.goTo c⟩]

def ofMappingType (r : Reading) : List Call :=
  match r.cursor.advance.eat? (.opens .paren) with
  | none => []
  | some c =>
    ⟨.typeName, r.goTo c⟩ ::
      match c.typeName with
      | (none, _) => []
      | (some _, d) =>
        match (d.skipNameBefore .fatArrow).eat? .fatArrow with
        | none => []
        | some e => [⟨.typeName, r.goTo e⟩]

def ofFunctionType (r : Reading) : List Call :=
  ⟨.skipGroup, r.advance⟩ ::
    match r.cursor.advance.skipGroup with
    | (false, _) => []
    | (true, c) =>
      match (c.skipWords ["external", "internal", "pure", "view", "payable"]).eat?
        (.keyword .returnsKw) with
      | none => []
      | some d => [⟨.skipGroup, r.goTo d⟩]

def ofArraySuffixes (element : TypeName) (r : Reading) : List Call :=
  if r.sees (.opens .square) then
    match (r.cursor.advance.skip r.cursor.advance.arrayLength.length).eat? (.closes .square) with
    | none => []
    | some c =>
      [⟨.arraySuffixes (.array element (Cursor.lengthText r.cursor.advance.arrayLength)),
        r.goTo c⟩]
  else []

/-- The calls that a call makes, each with the reading that it has come to by then. -/
def subcalls : Call → List Call
  | ⟨.items, r⟩ => ofItems r
  | ⟨.item, r⟩ => ofItem r
  | ⟨.fileImport, _⟩ => []
  | ⟨.contract, r⟩ => ofContract r
  | ⟨.bases, r⟩ => ofBases r
  | ⟨.contractBody, r⟩ => ofParts .member .contractBody r
  | ⟨.member, r⟩ => ofMember r
  | ⟨.stateVariable, r⟩ => ofStateVariable r
  | ⟨.variableName, r⟩ => ofVariableName r
  | ⟨.function, r⟩ => ofFunction r
  | ⟨.functionHeader, r⟩ => ofFunctionHeader r
  | ⟨.parameterList, r⟩ => ofParameterList r
  | ⟨.parameters, r⟩ => ofParameters r
  | ⟨.parameter, r⟩ => [⟨.typeName, r⟩]
  | ⟨.functionBody, r⟩ => [⟨.walk 0 .fresh, r.advance⟩]
  | ⟨.walk inner place, r⟩ => ofWalk inner place r
  | ⟨.declarations, r⟩ => ofDeclarations r
  | ⟨.tuple, r⟩ => [⟨.tupleHeads, r.advance⟩]
  | ⟨.tupleHeads, r⟩ => ofTupleHeads r
  | ⟨.declarationHead, r⟩ => ofDeclarationHead r
  | ⟨.event, r⟩ => ofEvent r
  | ⟨.struct, r⟩ => ofBlock .struct .fields r
  | ⟨.fields, r⟩ => ofParts .field .fields r
  | ⟨.field, r⟩ => ofField r
  | ⟨.enum, r⟩ => ofBlock .enum .enumMembers r
  | ⟨.enumMembers, r⟩ => ofEnumMembers r
  | ⟨.usingFor, r⟩ => ofUsingFor r
  | ⟨.typeName, r⟩ => ofTypeName r
  | ⟨.mappingType, r⟩ => ofMappingType r
  | ⟨.functionType, r⟩ => ofFunctionType r
  | ⟨.arraySuffixes element, r⟩ => ofArraySuffixes element r
  | ⟨.path, _⟩ | ⟨.skipGroup, _⟩ | ⟨.skipItem, _⟩ => []

end Call

/-- The calls that are made while a text is read: the first one and all that come of it. -/
inductive Made (text : String) : Call → Prop
  | first : Made text ⟨.items, .start text⟩
  | sub {x y : Call} (made : Made text x) (h : y ∈ x.subcalls) : Made text y

end SolidityCompass
