import SolidityCompass.Outline.Reading

/-!
# Functions and events

Parameter lists, function headers and bodies, and events. A malformed parameter is reported and
left out, and the list goes on behind the next comma.
-/

namespace SolidityCompass

namespace Reading

def endsParameter (kind : Kind) : Bool :=
  kind = .comma || kind = .closes .paren || kind = .opens .brace || kind = .closes .brace ||
    kind = .semicolon

/-- Reads one parameter: a type, then optionally a data location, the word `indexed`, a name. -/
def parameter (r : Reading) : Option Parameter × Reading :=
  match r.typeName with
  | (none, s) =>
    let s := s.report .expectedParameterType
    (none, s.goTo (s.cursor.skipUntil endsParameter))
  | (some type, s) =>
    let c := s.cursor.skipLocation.skipWords ["indexed"]
    let location := s.cursor.location?
    match c.name? with
    | some (name, c) =>
      (some ⟨type, location, some name, (s.goTo c).rangeFrom r.here.start⟩, s.goTo c)
    | none => (some ⟨type, location, none, (s.goTo c).rangeFrom r.here.start⟩, s.goTo c)

theorem reaches_parameter (r : Reading) : r.Reaches r.parameter.2 := by
  unfold parameter
  split
  next s h => exact (reaches_of_typeName h).trans (Cursor.reaches_skipUntil _ _)
  next type s h =>
    have hc := (reaches_of_typeName h).trans
      (s.cursor.reaches_skipLocation.trans (Cursor.reaches_skipWords ["indexed"] _))
    dsimp only
    split
    next name c hn => exact hc.trans (Cursor.passes_of_name? hn).reaches
    next => exact hc

def parameters (r : Reading) : List Parameter × Reading :=
  if r.cursor.rest.isEmpty || r.sees (.closes .paren) then ([], r)
  else
    match h : r.parameter.2.cursor.eat? .comma with
    | some c =>
      have : (r.parameter.2.goTo c).cursor.rest.length < r.cursor.rest.length :=
        (r.reaches_parameter.trans_passes (Cursor.passes_of_eat? h)).length_lt
      let tail := parameters (r.parameter.2.goTo c)
      (r.parameter.1.toList ++ tail.1, tail.2)
    | none => (r.parameter.1.toList, r.parameter.2)
termination_by r.cursor.rest.length

theorem reaches_parameters (r : Reading) : r.Reaches r.parameters.2 := by
  fun_induction parameters r with
  | case1 r => exact .refl r.cursor
  | case2 r _ c h _ _ ih =>
    exact r.reaches_parameter.trans ((Cursor.passes_of_eat? h).reaches.trans ih)
  | case3 r => exact r.reaches_parameter

def parameterList (r : Reading) : Option (List Parameter) × Reading :=
  if r.sees (.opens .paren) then
    let found := r.advance.parameters
    (some found.1, found.2.expect (.closes .paren))
  else (none, r.report (.expectedToken (.opens .paren)))

theorem reaches_parameterList (r : Reading) : r.Reaches r.parameterList.2 := by
  unfold parameterList
  split
  · exact r.cursor.reaches_advance.trans
      ((reaches_parameters _).trans (reaches_expect _ _))
  · exact .refl r.cursor

theorem reaches_of_parameterList {r s : Reading} {params : Option (List Parameter)}
    (h : r.parameterList = (params, s)) : r.Reaches s := by
  simpa [h] using r.reaches_parameterList

def endsHeader (kind : Kind) : Bool :=
  kind = .semicolon || kind = .opens .brace || kind = .closes .brace || kind.isKeyword

/-- Reads what stands between the parameters and the body: visibility, mutability, modifiers and
return parameters. The last list of return parameters counts. -/
def functionHeader (returns : List Parameter) (r : Reading) : List Parameter × Reading :=
  match h : r.kind? with
  | none => (returns, r)
  | some kind =>
    if kind = .keyword .returnsKw then
      have : r.advance.parameterList.2.cursor.rest.length < r.cursor.rest.length :=
        ((Cursor.passes_advance_of_kind? h).trans_reaches (reaches_parameterList _)).length_lt
      functionHeader (r.advance.parameterList.1.getD []) r.advance.parameterList.2
    else if hk : kind = .opens .paren then
      have : (r.goTo r.cursor.skipGroup.2).cursor.rest.length < r.cursor.rest.length :=
        (Cursor.passes_skipGroup (Cursor.sees_of_kind? (hk ▸ h))).length_lt
      functionHeader returns (r.goTo r.cursor.skipGroup.2)
    else if endsHeader kind then (returns, r)
    else
      have : r.advance.cursor.rest.length < r.cursor.rest.length :=
        (Cursor.passes_advance_of_kind? h).length_lt
      functionHeader returns r.advance
termination_by r.cursor.rest.length
decreasing_by all_goals assumption

theorem reaches_functionHeader (returns : List Parameter) (r : Reading) :
    r.Reaches (r.functionHeader returns).2 := by
  fun_induction functionHeader returns r with
  | case1 _ r => exact .refl r.cursor
  | case2 _ r _ _ ih =>
    exact r.cursor.reaches_advance.trans ((reaches_parameterList _).trans ih)
  | case3 _ r _ _ _ ih => exact r.cursor.reaches_skipGroup.trans ih
  | case4 _ r => exact .refl r.cursor
  | case5 _ r _ _ _ _ _ _ ih => exact r.cursor.reaches_advance.trans ih

/-- Reads the block of a function at its opening brace. A block that is not closed runs to the
end of the text. -/
def functionBody (r : Reading) : Body × Reading :=
  let scan := r.cursor.advance.scanBody 0 .fresh
  match scan.closed with
  | some stop => (⟨⟨r.here.start, stop⟩, scan.locals⟩, r.goTo scan.cursor)
  | none =>
    let range : ByteRange := ⟨r.here.start, r.cursor.textEnd⟩
    (⟨range, scan.locals⟩, (r.goTo scan.cursor).reportAt (.unterminated .functionBody) range)

theorem reaches_functionBody (r : Reading) : r.Reaches r.functionBody.2 := by
  unfold functionBody
  have h := r.cursor.reaches_advance.trans (Cursor.reaches_scanBody 0 .fresh _)
  dsimp only
  split <;> exact h

/-- Reads the kind and the name of a function at its keyword. A function without a name is the
fallback of older sources and is named by its keyword. -/
def functionName (r : Reading) : Option (FunctionKind × Name) × Reading :=
  let keyword := r.here
  match r.kind? with
  | some (.keyword .constructorKw) => (some (.constructor, ⟨"constructor", keyword⟩), r.advance)
  | some (.keyword .fallbackKw) => (some (.fallback, ⟨"fallback", keyword⟩), r.advance)
  | some (.keyword .receiveKw) => (some (.receive, ⟨"receive", keyword⟩), r.advance)
  | _ =>
    if r.advance.sees (.opens .paren) then (some (.fallback, ⟨"fallback", keyword⟩), r.advance)
    else
      let found := r.advance.expectName .function
      (found.1.map fun name => (.function, name), found.2)

theorem reaches_functionName (r : Reading) : r.advance.Reaches r.functionName.2 := by
  unfold functionName
  split
  · exact .refl _
  · exact .refl _
  · exact .refl _
  · split
    · exact .refl _
    · exact reaches_expectName _ _

theorem reaches_of_functionName {r s : Reading} {found : Option (FunctionKind × Name)}
    (h : r.functionName = (found, s)) : r.advance.Reaches s := by
  simpa [h] using r.reaches_functionName

def function (r : Reading) : Option Function × Reading :=
  match r.functionName with
  | (none, s) => (none, s.skipItem)
  | (some (kind, name), s) =>
    match s.parameterList with
    | (none, s) => (none, s.skipItem)
    | (some params, s) =>
      let header := s.functionHeader []
      if header.2.sees (.opens .brace) then
        let body := header.2.functionBody
        (some ⟨kind, name, params, header.1, some body.1, body.2.rangeFrom r.here.start⟩, body.2)
      else
        let s := header.2.expect .semicolon
        (some ⟨kind, name, params, header.1, none, s.rangeFrom r.here.start⟩, s)

theorem reaches_function (r : Reading) : r.advance.Reaches r.function.2 := by
  unfold function
  split
  next s h => exact (reaches_of_functionName h).trans s.cursor.reaches_skipItem
  next kind name s h =>
    have hs := reaches_of_functionName h
    split
    next s' h' => exact hs.trans ((reaches_of_parameterList h').trans s'.cursor.reaches_skipItem)
    next params s' h' =>
      have hs' := hs.trans ((reaches_of_parameterList h').trans (s'.reaches_functionHeader []))
      dsimp only
      split
      · exact hs'.trans (reaches_functionBody _)
      · exact hs'.trans (reaches_expect _ _)

def event (r : Reading) : Option Event × Reading :=
  match r.advance.expectName .event with
  | (none, s) => (none, s.skipItem)
  | (some name, s) =>
    match s.parameterList with
    | (none, s) => (none, s.skipItem)
    | (some params, s) =>
      let s := (s.goTo (s.cursor.skipWord "anonymous")).expect .semicolon
      (some ⟨name, params, s.rangeFrom r.here.start⟩, s)

theorem reaches_event (r : Reading) : r.advance.Reaches r.event.2 := by
  unfold event
  split
  next s h => exact (reaches_of_expectName h).trans s.cursor.reaches_skipItem
  next name s h =>
    have hs := reaches_of_expectName h
    split
    next s' h' => exact hs.trans ((reaches_of_parameterList h').trans s'.cursor.reaches_skipItem)
    next params s' h' =>
      exact hs.trans ((reaches_of_parameterList h').trans
        ((s'.cursor.reaches_skipWord _).trans (reaches_expect _ _)))

end Reading

end SolidityCompass
