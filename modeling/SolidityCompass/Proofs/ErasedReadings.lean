import SolidityCompass.Proofs.ErasedCursors
import SolidityCompass.Proofs.RoundTrip

/-!
# Declarations without places

The readers of declarations commute with erasing places as well: from the erased reading they get
the same declarations and report the same faults, both without places. Errors that were met before
are never looked at, so an erased reading may carry other `older` ones.
-/

namespace SolidityCompass

def SyntaxError.erase (e : SyntaxError) : SyntaxError := { e with range := .empty 0 }

namespace Reading

/-- The reading without places, its errors in front of older ones. -/
def erase (older : List SyntaxError) (r : Reading) : Reading :=
  ⟨r.cursor.erase, r.faults.map SyntaxError.erase ++ older⟩

abbrev eraseFound {α : Type} (older : List SyntaxError) (f : α → α) (found : α × Reading) :
    α × Reading :=
  (f found.1, found.2.erase older)

variable (older : List SyntaxError) (r : Reading)

@[simp] theorem cursor_erase : (r.erase older).cursor = r.cursor.erase := rfl

@[simp] theorem kind?_erase : (r.erase older).kind? = r.kind? := r.cursor.kind?_erase

@[simp] theorem sees_erase (kind : Kind) : (r.erase older).sees kind = r.sees kind :=
  r.cursor.sees_erase kind

@[simp] theorem here_erase : (r.erase older).here = .empty 0 := r.cursor.here_erase

@[simp] theorem rangeFrom_erase : (r.erase older).rangeFrom (ByteRange.empty 0).start = .empty 0 :=
  rfl

@[simp] theorem goTo_erase (c : Cursor) :
    (r.erase older).goTo c.erase = (r.goTo c).erase older := rfl

@[simp] theorem advance_erase : (r.erase older).advance = r.advance.erase older := by
  rw [advance, cursor_erase, Cursor.advance_erase, goTo_erase]
  rfl

@[simp] theorem report_erase (fault : Fault) :
    (r.erase older).report fault = (r.report fault).erase older := by
  rw [report, here_erase]
  rfl

@[simp] theorem skipItem_erase : (r.erase older).skipItem = r.skipItem.erase older := by
  rw [skipItem, cursor_erase, Cursor.skipItem_erase, goTo_erase]
  rfl

@[simp] theorem recover_erase (fault : Fault) :
    (r.erase older).recover fault = (r.recover fault).erase older := by
  simp [recover]

@[simp] theorem skipKind_erase (kind : Kind) :
    (r.erase older).skipKind kind = (r.skipKind kind).erase older := by
  cases h : r.sees kind <;> simp [skipKind, h]

@[simp] theorem expect_erase (kind : Kind) :
    (r.erase older).expect kind = (r.expect kind).erase older := by
  cases h : r.sees kind <;> simp [expect, h]

@[simp] theorem expectName_erase (role : NameRole) :
    (r.erase older).expectName role =
      eraseFound older (Option.map Name.erase) (r.expectName role) := by
  cases h : r.cursor.name? <;> simp [expectName, h]

@[simp] theorem typeName_erase : (r.erase older).typeName = eraseFound older id r.typeName := by
  simp [typeName]

/-! ## Functions and events -/

@[simp] theorem parameter_erase :
    (r.erase older).parameter = eraseFound older (Option.map Parameter.erase) r.parameter := by
  unfold parameter
  rw [typeName_erase, here_erase]
  rcases r.typeName with ⟨_ | type, s⟩
  · dsimp only [eraseFound, id]
    rw [report_erase, cursor_erase, Cursor.skipUntil_erase]
    rfl
  · dsimp only [eraseFound, id]
    rw [cursor_erase, Cursor.skipLocation_erase, Cursor.skipWords_erase, Cursor.location?_erase,
      Cursor.name?_erase]
    cases (s.cursor.skipLocation.skipWords ["indexed"]).name? <;> rfl

@[simp] theorem parameters_erase :
    (r.erase older).parameters = eraseFound older (List.map Parameter.erase) r.parameters := by
  fun_induction parameters r with
  | case1 r h =>
    rw [parameters, if_pos (by simpa using h)]
    rfl
  | case2 r h c hcomma _ tail ih =>
    simp only [Bool.or_eq_true, not_or, Bool.not_eq_true] at h
    rw [parameters_eq (by simpa using h.1) (by simpa using h.2), parameter_erase]
    simp [hcomma, ih, tail, Option.toList_map]
  | case3 r h hcomma =>
    simp only [Bool.or_eq_true, not_or, Bool.not_eq_true] at h
    rw [parameters_eq (by simpa using h.1) (by simpa using h.2), parameter_erase]
    simp [hcomma, Option.toList_map]

@[simp] theorem parameterList_erase :
    (r.erase older).parameterList =
      eraseFound older (Option.map (List.map Parameter.erase)) r.parameterList := by
  cases h : r.sees (.opens .paren) <;> simp [parameterList, h]

theorem functionHeader_eq (returns : List Parameter) :
    r.functionHeader returns = match r.kind? with
      | none => (returns, r)
      | some kind =>
        if kind = .keyword .returnsKw then
          r.advance.parameterList.2.functionHeader (r.advance.parameterList.1.getD [])
        else if kind = .opens .paren then (r.goTo r.cursor.skipGroup.2).functionHeader returns
        else if endsHeader kind then (returns, r)
        else r.advance.functionHeader returns := by
  rw [functionHeader]
  split
  next => simp_all
  next => simp_all

@[simp] theorem functionHeader_erase (returns : List Parameter) :
    (r.erase older).functionHeader (returns.map Parameter.erase) =
      eraseFound older (List.map Parameter.erase) (r.functionHeader returns) := by
  fun_induction functionHeader returns r with
  | case1 returns r hk => simp [functionHeader_eq, hk]
  | case2 returns r hk _ ih =>
    have hreturns (found : Option (List Parameter)) :
        (found.map (List.map Parameter.erase)).getD [] =
          (found.getD []).map Parameter.erase := by cases found <;> rfl
    rw [functionHeader_eq, kind?_erase, hk]
    simp [hreturns, ih]
  | case3 returns r hk _ _ ih =>
    rw [functionHeader_eq, kind?_erase, hk]
    simp [ih]
  | case4 returns r kind hk hreturns hopen hends =>
    rw [functionHeader_eq, kind?_erase, hk]
    simp [hreturns, hopen, hends]
  | case5 returns r kind hk hreturns hopen hends _ ih =>
    rw [functionHeader_eq, kind?_erase, hk]
    simp [hreturns, hopen, hends, ih]

@[simp] theorem functionBody_erase :
    (r.erase older).functionBody = eraseFound older Body.erase r.functionBody := by
  unfold functionBody
  simp only [cursor_erase, Cursor.advance_erase, Cursor.scanBody_erase, here_erase,
    Cursor.BodyScan.erase]
  cases (r.cursor.advance.scanBody 0 .fresh).closed <;> rfl

@[simp] theorem functionName_erase :
    (r.erase older).functionName =
      eraseFound older (Option.map (Prod.map id Name.erase)) r.functionName := by
  unfold functionName
  simp only [kind?_erase, here_erase, advance_erase, sees_erase, expectName_erase]
  split
  · rfl
  · rfl
  · rfl
  · split
    · rfl
    · rcases r.advance.expectName .function with ⟨_ | name, s⟩ <;> rfl

@[simp] theorem function_erase :
    (r.erase older).function = eraseFound older (Option.map Function.erase) r.function := by
  unfold function
  rw [functionName_erase, here_erase]
  rcases r.functionName with ⟨_ | ⟨kind, name⟩, s⟩
  · exact congrArg (Prod.mk none) (skipItem_erase older s)
  · dsimp only [eraseFound, Option.map_some, Prod.map]
    rw [parameterList_erase]
    rcases s.parameterList with ⟨_ | params, s⟩
    · exact congrArg (Prod.mk none) (skipItem_erase older s)
    · have hheader := s.functionHeader_erase older []
      rw [List.map_nil] at hheader
      dsimp only [eraseFound, Option.map_some]
      rw [hheader, sees_erase, functionBody_erase, expect_erase]
      split <;> rfl

@[simp] theorem event_erase :
    (r.erase older).event = eraseFound older (Option.map Event.erase) r.event := by
  unfold event
  rw [advance_erase, expectName_erase, here_erase]
  rcases r.advance.expectName .event with ⟨_ | name, s⟩
  · exact congrArg (Prod.mk none) (skipItem_erase older s)
  · dsimp only [eraseFound, Option.map_some]
    rw [parameterList_erase]
    rcases s.parameterList with ⟨_ | params, s⟩
    · exact congrArg (Prod.mk none) (skipItem_erase older s)
    · dsimp only [eraseFound, Option.map_some]
      rw [cursor_erase, Cursor.skipWord_erase, goTo_erase, expect_erase]
      rfl

/-! ## Structs, enums, variables and directives -/

/-- A block is read without places if each of its parts is. -/
theorem block_erase {α : Type} {f : α → α} {name : Block} {part : Reading → Option α × Reading}
    {progress : ∀ {r : Reading} {kind : Kind}, r.kind? = some kind → kind ≠ .closes .brace →
      r.Passes (part r).2}
    (hpart : ∀ r : Reading, part (r.erase older) = eraseFound older (Option.map f) (part r)) :
    (r.erase older).block name part progress =
      eraseFound older (List.map f) (r.block name part progress) := by
  fun_induction block name part progress r with
  | case1 r hk =>
    rw [block]
    split
    next => simp
    next hother => simp [hk] at hother
  | case2 r hk => simp [block_eq (show (r.erase older).kind? = some (.closes .brace) by simpa)]
  | case3 r kind hk hclose _ tail ih =>
    rw [block_eq (by simpa using hk), if_neg hclose, hpart, ih]
    simp [tail, Option.toList_map]

@[simp] theorem field_erase :
    (r.erase older).field = eraseFound older (Option.map Field.erase) r.field := by
  unfold field
  rw [typeName_erase]
  rcases r.typeName with ⟨_ | type, s⟩
  · exact congrArg (Prod.mk none) (recover_erase older s _)
  · dsimp only [eraseFound, id]
    rw [expectName_erase]
    rcases s.expectName .field with ⟨_ | name, s⟩
    · exact congrArg (Prod.mk none) (skipItem_erase older s)
    · exact congrArg (Prod.mk _) (expect_erase older s .semicolon)

@[simp] theorem blockName_erase (role : NameRole) :
    (r.erase older).blockName role =
      eraseFound older (Option.map Name.erase) (r.blockName role) := by
  unfold blockName
  rw [expectName_erase]
  rcases r.expectName role with ⟨_ | name, s⟩
  · exact congrArg (Prod.mk none) (skipItem_erase older s)
  · dsimp only [eraseFound, Option.map_some]
    rw [sees_erase, advance_erase, recover_erase]
    split <;> rfl

@[simp] theorem struct_erase :
    (r.erase older).struct = eraseFound older (Option.map Struct.erase) r.struct := by
  unfold struct
  rw [advance_erase, blockName_erase, here_erase]
  rcases r.advance.blockName .struct with ⟨_ | name, s⟩
  · rfl
  · dsimp only [eraseFound, Option.map_some]
    rw [block_erase older s (field_erase older)]
    rfl

@[simp] theorem enumMember_erase :
    (r.erase older).enumMember = eraseFound older (Option.map Name.erase) r.enumMember := by
  cases h : r.cursor.name? <;> simp [enumMember, h]

@[simp] theorem enumMembers_erase :
    (r.erase older).enumMembers = eraseFound older (List.map Name.erase) r.enumMembers := by
  fun_induction enumMembers r with
  | case1 r hk =>
    rw [enumMembers]
    split
    next => simp
    next hother => simp [hk] at hother
  | case2 r hk =>
    rw [enumMembers_eq (by simpa using hk), if_pos rfl]
    simp
  | case3 r kind hk hclose hcomma _ tail ih =>
    rw [enumMembers_eq (by simpa using hk), if_neg hclose, enumMember_erase,
      if_pos (by simpa using hcomma)]
    simp [ih, tail, Option.toList_map]
  | case4 r kind hk hclose hcomma =>
    rw [enumMembers_eq (by simpa using hk), if_neg hclose, enumMember_erase,
      if_neg (by simpa using hcomma)]
    simp [Option.toList_map]

@[simp] theorem enum_erase :
    (r.erase older).enum = eraseFound older (Option.map Enum.erase) r.enum := by
  unfold enum
  rw [advance_erase, blockName_erase, here_erase]
  rcases r.advance.blockName .enum with ⟨_ | name, s⟩
  · rfl
  · dsimp only [eraseFound, Option.map_some]
    rw [enumMembers_erase]
    rfl

@[simp] theorem usingEnd_erase : (r.erase older).usingEnd = r.usingEnd.erase older := by
  rw [usingEnd, cursor_erase, Cursor.skipWord_erase, goTo_erase, expect_erase]
  rfl

@[simp] theorem usingFor_erase :
    (r.erase older).usingFor = eraseFound older (Option.map Using.erase) r.usingFor := by
  unfold usingFor
  rw [advance_erase, sees_erase, here_erase, cursor_erase, Cursor.skipGroup_erase,
    Cursor.path?_erase]
  split
  · exact congrArg (Prod.mk none)
      (skipItem_erase older (r.advance.goTo r.advance.cursor.skipGroup.2))
  · rcases r.advance.cursor.path? with _ | ⟨library, c⟩
    · exact congrArg (Prod.mk none) (recover_erase older _ _)
    · dsimp only [Option.map_some, Cursor.eraseFound, id]
      rw [Cursor.eat?_erase]
      rcases c.eat? (.keyword .forKw) with _ | d
      · exact congrArg (Prod.mk none) (recover_erase older (r.goTo c) _)
      · dsimp only [Option.map_some]
        rw [Cursor.sees_erase, Cursor.advance_erase, goTo_erase, goTo_erase, usingEnd_erase,
          typeName_erase]
        split
        · rfl
        · rcases (r.goTo d).typeName with ⟨_ | target, s⟩
          · exact congrArg (Prod.mk none) (recover_erase older s _)
          · dsimp only [eraseFound, id]
            rw [usingEnd_erase]
            rfl

@[simp] theorem stateVariable_erase :
    (r.erase older).stateVariable =
      eraseFound older (Option.map StateVariable.erase) r.stateVariable := by
  unfold stateVariable
  rw [typeName_erase, here_erase]
  rcases r.typeName with ⟨_ | type, s⟩
  · exact congrArg (Prod.mk none) (recover_erase older s _)
  · dsimp only [eraseFound, id]
    rw [cursor_erase, Cursor.variableName_erase]
    rcases s.cursor.variableName with ⟨_ | name, c⟩
    · exact congrArg (Prod.mk none) (recover_erase older (s.goTo c) _)
    · dsimp only [Cursor.eraseFound, Option.map_some]
      rw [goTo_erase, skipItem_erase]
      rfl

/-! ## Contracts and items -/

@[simp] theorem isPassedOver_erase : (r.erase older).isPassedOver = r.isPassedOver := by
  simp [isPassedOver]

/-- A declaration is erased inside the kind of member or item that it is. -/
theorem eraseFound_map {α β : Type} {f : α → α} {g : β → β} {wrap : α → β}
    (found : Option α × Reading) (h : ∀ x, wrap (f x) = g (wrap x) := by exact fun _ => rfl) :
    ((eraseFound older (Option.map f) found).1.map wrap, found.2.erase older) =
      eraseFound older (Option.map g) (found.1.map wrap, found.2) := by
  rcases found with ⟨_ | x, s⟩
  · rfl
  · simp [h]

@[simp] theorem member_erase :
    (r.erase older).member = eraseFound older (Option.map Member.erase) r.member := by
  unfold member
  simp only [kind?_erase, sees_erase, cursor_erase, Cursor.kindAfter?_erase, isPassedOver_erase,
    function_erase, event_erase, struct_erase, enum_erase, usingFor_erase, stateVariable_erase,
    advance_erase, skipItem_erase]
  split
  · exact eraseFound_map older r.function
  · exact eraseFound_map older r.function
  · exact eraseFound_map older r.event
  · exact eraseFound_map older r.struct
  · exact eraseFound_map older r.enum
  · exact eraseFound_map older r.usingFor
  · rfl
  · split
    · exact eraseFound_map older r.function
    · split
      · rfl
      · exact eraseFound_map older r.stateVariable

def behindArguments (c : Cursor) : Cursor :=
  if c.sees (.opens .paren) then c.skipGroup.2 else c

theorem behindArguments_erase (c : Cursor) :
    behindArguments c.erase = (behindArguments c).erase := by
  rw [behindArguments, Cursor.sees_erase, Cursor.skipGroup_erase, behindArguments]
  split <;> rfl

theorem bases_eq :
    r.bases = match r.cursor.path? with
      | none => ([], r.report .expectedBase)
      | some (base, c) =>
        if (behindArguments c).sees .comma then
          (base :: (r.goTo (behindArguments c).advance).bases.1,
            (r.goTo (behindArguments c).advance).bases.2)
        else ([base], r.goTo (behindArguments c)) := by
  rw [bases]
  split
  next h => rw [h]
  next h =>
    simp only [h]
    rfl

@[simp] theorem bases_erase : (r.erase older).bases = eraseFound older id r.bases := by
  fun_induction bases r with
  | case1 r hpath => simp [bases_eq, hpath]
  | case2 r base c hpath c' hcomma _ tail ih =>
    have hc' : c' = behindArguments c := rfl
    rw [hc'] at hcomma ih
    simp [bases_eq (r.erase older), hpath, behindArguments_erase, hcomma, ih, tail, hc']
  | case3 r base c hpath c' hcomma =>
    have hc' : c' = behindArguments c := rfl
    rw [hc'] at hcomma
    simp [bases_eq (r.erase older), hpath, behindArguments_erase, hcomma, hc']

@[simp] theorem baseList_erase : (r.erase older).baseList = eraseFound older id r.baseList := by
  cases h : r.sees (.keyword .isKw) <;> simp [baseList, h]

@[simp] theorem enterBody_erase : (r.erase older).enterBody = eraseFound older id r.enterBody := by
  unfold enterBody
  simp only [sees_erase, advance_erase, report_erase, cursor_erase, Cursor.skipUntil_erase,
    goTo_erase, skipKind_erase]
  split
  · rfl
  · split <;> rfl

@[simp] theorem contractKind?_erase : (r.erase older).contractKind? = r.contractKind? := by
  simp [contractKind?]

theorem contractFrom_erase (start : Nat) (isAbstract : Bool) :
    (r.erase older).contractFrom 0 isAbstract =
      eraseFound older (Option.map Contract.erase) (r.contractFrom start isAbstract) := by
  unfold contractFrom
  rw [contractKind?_erase, advance_erase, expectName_erase]
  cases r.contractKind? with
  | none => exact congrArg (Prod.mk none) (recover_erase older r _)
  | some kind =>
    rcases r.advance.expectName .contract with ⟨_ | name, s⟩
    · exact congrArg (Prod.mk none) (skipItem_erase older s)
    · dsimp only [eraseFound, Option.map_some]
      rw [baseList_erase, enterBody_erase]
      rcases s.baseList.2.enterBody with ⟨_ | _, s⟩
      · rfl
      · dsimp only [eraseFound, id]
        rw [block_erase older s (member_erase older)]
        rfl

@[simp] theorem contract_erase :
    (r.erase older).contract = eraseFound older (Option.map Contract.erase) r.contract := by
  unfold contract
  rw [sees_erase, advance_erase, here_erase]
  split
  · exact contractFrom_erase older r.advance r.here.start true
  · exact contractFrom_erase older r r.here.start false

theorem importLiteral?_erase (c : Cursor) :
    importLiteral? c.erase = (importLiteral? c).map Token.erase := by
  rw [importLiteral?, Cursor.rest_erase, Cursor.takeWhile_map_erase (fun _ => rfl),
    List.find?_map]
  rfl

@[simp] theorem fileImport_erase :
    (r.erase older).fileImport = eraseFound older (Option.map Import.erase) r.fileImport := by
  unfold fileImport
  dsimp only
  rw [advance_erase, cursor_erase, Cursor.advance_erase, Cursor.skipUntil_erase, goTo_erase,
    expect_erase, importLiteral?_erase, here_erase]
  cases importLiteral? r.cursor.advance <;> rfl

@[simp] theorem item_erase :
    (r.erase older).item = eraseFound older (Option.map Item.erase) r.item := by
  unfold item
  simp only [kind?_erase, fileImport_erase, contract_erase, struct_erase, enum_erase,
    report_erase, advance_erase, skipItem_erase]
  split
  · exact eraseFound_map older r.fileImport
  · exact eraseFound_map older r.contract
  · exact eraseFound_map older r.contract
  · exact eraseFound_map older r.contract
  · exact eraseFound_map older r.contract
  · exact eraseFound_map older r.struct
  · exact eraseFound_map older r.enum
  · rfl
  · rfl

@[simp] theorem items_erase :
    (r.erase older).items = eraseFound older (List.map Item.erase) r.items := by
  fun_induction items r with
  | case1 r hk =>
    rw [items]
    split
    next => rfl
    next hother => simp [hk] at hother
  | case2 r kind hk _ tail ih =>
    rw [items_of_item (show (r.erase older).kind? = some kind by simpa using hk), item_erase, ih]
    simp [tail, Option.toList_map]

end Reading

end SolidityCompass
