import SolidityCompass.Proofs.PrintedFunctions

/-!
# Reading without places

`Cursor.erase` forgets where the tokens ahead stand and keeps their kinds and texts. Every reader
that works on a cursor commutes with it: what it reads from the erased cursor is what it reads
from the cursor itself, with the places erased. So no decision of these readers, and no text that
they put together, depends on where a token stands.
-/

namespace SolidityCompass

def Token.erase (t : Token) : Token := { t with range := .empty 0 }

@[simp] theorem Token.kind_erase (t : Token) : t.erase.kind = t.kind := rfl

@[simp] theorem Token.text_erase (t : Token) : t.erase.text = t.text := rfl

namespace Cursor

def erase (c : Cursor) : Cursor := ⟨0, c.rest.map Token.erase, 0⟩

variable (c : Cursor)

@[simp] theorem rest_erase : c.erase.rest = c.rest.map Token.erase := rfl

@[simp] theorem kind?_erase : c.erase.kind? = c.kind? := by
  cases h : c.rest <;> simp [kind?, h]

@[simp] theorem kindAfter?_erase (n : Nat) : c.erase.kindAfter? n = c.kindAfter? n := by
  simp [kindAfter?, Function.comp_def]

@[simp] theorem here_erase : c.erase.here = .empty 0 := by
  cases h : c.rest <;> simp [here, h, erase, Token.erase]

@[simp] theorem sees_erase (kind : Kind) : c.erase.sees kind = c.sees kind := by
  simp [sees]

@[simp] theorem seesAny_erase (p : Kind → Bool) : c.erase.seesAny p = c.seesAny p := by
  simp [seesAny]

@[simp] theorem seesWord_erase (word : String) : c.erase.seesWord word = c.seesWord word := by
  cases h : c.rest with
  | nil => simp [seesWord, h]
  | cons t ts =>
    simp only [seesWord, rest_erase, h, List.map_cons]
    rfl

@[simp] theorem advance_erase : c.erase.advance = c.advance.erase := by
  cases h : c.rest <;> simp [advance, erase, h, Token.erase, ByteRange.empty]

@[simp] theorem skip_erase (n : Nat) : c.erase.skip n = (c.skip n).erase := by
  induction n generalizing c with
  | zero => rfl
  | succ n ih => rw [skip_succ, advance_erase, ih, skip_succ]

@[simp] theorem eat?_erase (kind : Kind) : c.erase.eat? kind = (c.eat? kind).map erase := by
  cases h : c.sees kind <;> simp [eat?, h]

theorem takeWhile_map_erase {p q : Token → Bool} (h : ∀ t, p t.erase = q t) (ts : List Token) :
    (ts.map Token.erase).takeWhile p = (ts.takeWhile q).map Token.erase := by
  rw [List.takeWhile_map]
  simp only [Function.comp_def, h]

@[simp] theorem skipUntil_erase (p : Kind → Bool) :
    c.erase.skipUntil p = (c.skipUntil p).erase := by
  rw [skipUntil, rest_erase, takeWhile_map_erase (fun _ => rfl), List.length_map, skip_erase]
  rfl

@[simp] theorem skipWords_erase (words : List String) :
    c.erase.skipWords words = (c.skipWords words).erase := by
  rw [skipWords, rest_erase, takeWhile_map_erase (fun _ => rfl), List.length_map, skip_erase]
  rfl

@[simp] theorem skipWord_erase (word : String) :
    c.erase.skipWord word = (c.skipWord word).erase := by
  cases h : c.seesWord word <;> simp [skipWord, h]

@[simp] theorem skipNameBefore_erase (kind : Kind) :
    c.erase.skipNameBefore kind = (c.skipNameBefore kind).erase := by
  simp only [skipNameBefore, seesAny_erase, kindAfter?_erase, advance_erase]
  split <;> rfl

abbrev eraseFound {α : Type} (f : α → α) (found : α × Cursor) : α × Cursor :=
  (f found.1, found.2.erase)

@[simp] theorem name?_erase : c.erase.name? = c.name?.map (eraseFound Name.erase) := by
  cases h : c.rest with
  | nil => simp [name?, h]
  | cons t ts =>
    cases hname : t.kind.isName <;> simp [name?, h, hname, Name.erase, Token.erase]

@[simp] theorem segments_map_erase (ts : List Token) :
    segments (ts.map Token.erase) = segments ts := by
  fun_induction segments ts with
  | case1 point word ts h ih =>
    rw [List.map_cons, List.map_cons, segments, ih]
    exact if_pos h
  | case2 point word ts h =>
    rw [List.map_cons, List.map_cons, segments]
    exact if_neg h
  | case3 ts h =>
    rcases ts with _ | ⟨t, _ | ⟨u, us⟩⟩
    · rfl
    · rfl
    · exact absurd rfl (h t u us)

@[simp] theorem path?_erase : c.erase.path? = c.path?.map (eraseFound id) := by
  cases h : c.name? <;> simp [path?, h, Name.erase]

@[simp] theorem location?_erase : c.erase.location? = c.location? := by
  simp [location?]

@[simp] theorem skipLocation_erase : c.erase.skipLocation = c.skipLocation.erase := by
  cases h : c.location? <;> simp [skipLocation, h]

@[simp] theorem groupLength_map_erase (shape : Bracket) (inner : Nat) (ts : List Token) :
    groupLength shape inner (ts.map Token.erase) = groupLength shape inner ts := by
  induction ts generalizing inner with
  | nil => rfl
  | cons t ts ih => simp [groupLength, ih]

@[simp] theorem skipGroup_erase : c.erase.skipGroup = eraseFound id c.skipGroup := by
  simp only [skipGroup, kind?_erase, rest_erase, ← List.map_tail, groupLength_map_erase, skip_erase]
  split <;> rfl

@[simp] theorem itemLength_map_erase (depth : Nat) (ts : List Token) :
    itemLength depth (ts.map Token.erase) = itemLength depth ts := by
  induction ts generalizing depth with
  | nil => rfl
  | cons t ts ih => simp [itemLength, ih]

@[simp] theorem skipItem_erase : c.erase.skipItem = c.skipItem.erase := by
  simp [skipItem]

theorem lengthText_map_erase (ts : List Token) :
    lengthText (ts.map Token.erase) = lengthText ts := by
  simp [lengthText, Function.comp_def]

theorem arrayLength_erase : c.erase.arrayLength = c.arrayLength.map Token.erase :=
  takeWhile_map_erase (fun _ => rfl) c.rest

@[simp] theorem arraySuffixes_erase (element : TypeName) :
    arraySuffixes element c.erase = eraseFound id (arraySuffixes element c) := by
  fun_induction arraySuffixes element c with
  | case1 element c hopen length d hclose _ ih =>
    rw [arraySuffixes_eq, sees_erase, if_pos hopen]
    simp [arrayLength_erase, lengthText_map_erase, length, hclose, ih]
  | case2 element c hopen length hclose =>
    rw [arraySuffixes_eq, sees_erase, if_pos hopen]
    simp [arrayLength_erase, length, hclose]
  | case3 element c hopen =>
    rw [arraySuffixes_eq, sees_erase, if_neg hopen]
    rfl

@[simp] theorem namedType?_erase : c.erase.namedType? = c.namedType?.map (eraseFound id) := by
  cases h : c.path? with
  | none => simp [namedType?, h]
  | some found =>
    simp only [namedType?, path?_erase, h, Option.map_some, seesWord_erase, advance_erase, id]
    split <;> rfl

@[simp] theorem functionType_erase : c.erase.functionType = eraseFound id c.functionType := by
  unfold functionType
  rw [advance_erase, skipGroup_erase]
  rcases c.advance.skipGroup with ⟨_ | _, d⟩
  · rfl
  · dsimp only [eraseFound, id]
    rw [skipWords_erase, eat?_erase]
    cases (d.skipWords ["external", "internal", "pure", "view", "payable"]).eat?
      (.keyword .returnsKw) <;> simp

@[simp] theorem withSuffixes_erase (found : Option TypeName × Cursor) :
    withSuffixes (eraseFound id found) = eraseFound id (withSuffixes found) := by
  rcases found with ⟨_ | element, d⟩
  · rfl
  · exact arraySuffixes_erase d element

/-- A mapping is read without places if the types in it are. -/
theorem mappingType_erase (htype : ∀ d : Cursor, c.Passes d →
    d.erase.typeName = eraseFound id d.typeName) (hk : c.kind? = some (.keyword .mappingKw)) :
    c.erase.mappingType = eraseFound id c.mappingType := by
  unfold mappingType
  rw [advance_erase, eat?_erase]
  cases hopen : c.advance.eat? (.opens .paren) with
  | none => rfl
  | some c₁ =>
    have h₁ := (passes_advance_of_kind? hk).trans_reaches (passes_of_eat? hopen).reaches
    simp only [Option.map_some]
    rw [htype c₁ h₁]
    rcases hkey : c₁.typeName with ⟨_ | key, d⟩
    · rfl
    · have hd := h₁.trans_reaches (passes_of_typeName hkey).reaches
      simp only [eraseFound, id, skipNameBefore_erase, eat?_erase]
      cases harrow : (d.skipNameBefore .fatArrow).eat? .fatArrow with
      | none => rfl
      | some c₂ =>
        have h₂ := hd.trans_reaches
          ((d.reaches_skipNameBefore .fatArrow).trans (passes_of_eat? harrow).reaches)
        simp only [Option.map_some]
        rw [htype c₂ h₂]
        rcases hvalue : c₂.typeName with ⟨_ | value, e⟩
        · rfl
        · simp only [eraseFound, id, skipNameBefore_erase, eat?_erase]
          cases (e.skipNameBefore (.closes .paren)).eat? (.closes .paren) <;> rfl

@[simp] theorem typeName_erase : c.erase.typeName = eraseFound id c.typeName := by
  induction hn : c.rest.length using Nat.strong_induction_on generalizing c with
  | _ n ih =>
    subst hn
    by_cases hm : c.kind? = some (.keyword .mappingKw)
    · rw [typeName_of_mapping hm, typeName_of_mapping (by simpa using hm),
        c.mappingType_erase (fun d hd => ih _ hd.length_lt d rfl) hm, withSuffixes_erase]
    by_cases hf : c.kind? = some (.keyword .functionKw)
    · rw [typeName_of_function hf, typeName_of_function (by simpa using hf), functionType_erase,
        withSuffixes_erase]
    cases hnamed : c.namedType? with
    | none =>
      rw [typeName_of_none hm hf hnamed,
        typeName_of_none (by simpa using hm) (by simpa using hf) (by simp [hnamed])]
      rfl
    | some found =>
      obtain ⟨type, d⟩ := found
      rw [typeName_of_named hm hf hnamed, ← arraySuffixes_erase]
      exact typeName_of_named (by simpa using hm) (by simpa using hf) (by simp [hnamed])

/-! ## Bodies -/

@[simp] theorem declarationHead?_erase :
    c.erase.declarationHead? = c.declarationHead?.map (eraseFound LocalVariable.erase) := by
  have hstarts : c.erase.rest.head?.any startsDeclaration = c.rest.head?.any startsDeclaration := by
    cases h : c.rest with
    | nil => simp [h]
    | cons t ts =>
      rw [rest_erase, h]
      rfl
  unfold declarationHead?
  rw [hstarts, typeName_erase, here_erase]
  split
  next =>
    rcases c.typeName with ⟨_ | type, d⟩
    · rfl
    · simp only [eraseFound, id, skipLocation_erase, name?_erase, Option.map_map]
      rfl
  next => rfl

theorem tupleHeads?_eq :
    c.tupleHeads? = match c.kind? with
      | some .comma => c.advance.tupleHeads?
      | some (.closes .paren) => some ([], c.advance)
      | _ =>
        match c.declarationHead? with
        | none => none
        | some (v, d) =>
          if d.seesAny separatesHeads then d.tupleHeads?.map fun (vs, e) => (v :: vs, e)
          else none := by
  rw [tupleHeads?]
  split <;> simp_all
  split <;> simp_all

theorem tupleHeads?_of_head (hcomma : c.kind? ≠ some .comma)
    (hclose : c.kind? ≠ some (.closes .paren)) :
    c.tupleHeads? = match c.declarationHead? with
      | none => none
      | some (v, d) =>
        if d.seesAny separatesHeads then d.tupleHeads?.map fun (vs, e) => (v :: vs, e)
        else none := by
  rw [tupleHeads?_eq]
  split
  next hk => exact absurd hk hcomma
  next hk => exact absurd hk hclose
  next => rfl

@[simp] theorem tupleHeads?_erase :
    c.erase.tupleHeads? = c.tupleHeads?.map (eraseFound (List.map LocalVariable.erase)) := by
  fun_induction tupleHeads? c with
  | case1 c hk _ ih =>
    rw [tupleHeads?_eq, kind?_erase, hk]
    simp [ih]
  | case2 c hk =>
    rw [tupleHeads?_eq, kind?_erase, hk]
    simp
  | case3 c hhead hcomma hclose =>
    rw [tupleHeads?_of_head _ (by simpa using hcomma) (by simpa using hclose),
      declarationHead?_erase, hhead]
    rfl
  | case4 c v d hhead _ hsep hcomma hclose ih =>
    rw [tupleHeads?_of_head _ (by simpa using hcomma) (by simpa using hclose),
      declarationHead?_erase, hhead]
    simp only [Option.map_some, eraseFound, seesAny_erase, hsep, if_true, ih, Option.map_map]
    rfl
  | case5 c v d hhead _ hsep hcomma hclose =>
    rw [tupleHeads?_of_head _ (by simpa using hcomma) (by simpa using hclose),
      declarationHead?_erase, hhead]
    simp [hsep]

@[simp] theorem declarations?_erase :
    c.erase.declarations? = c.declarations?.map (eraseFound (List.map LocalVariable.erase)) := by
  unfold declarations?
  rw [sees_erase, advance_erase, tupleHeads?_erase, declarationHead?_erase]
  split
  next =>
    cases c.advance.tupleHeads? with
    | none => rfl
    | some found => simp [Option.filter]
  next =>
    cases c.declarationHead? with
    | none => rfl
    | some found =>
      simp only [Option.filter, Option.map_some, eraseFound, sees_erase]
      split <;> rfl

@[simp] theorem declarations_erase :
    c.erase.declarations = eraseFound (List.map LocalVariable.erase) c.declarations := by
  cases h : c.declarations? <;> simp [declarations, h]

@[simp] theorem declarationsAt_erase (place : Place) :
    c.erase.declarationsAt place =
      eraseFound (List.map LocalVariable.erase) (c.declarationsAt place) := by
  cases place <;> simp [declarationsAt]

def BodyScan.erase (scan : BodyScan) : BodyScan :=
  ⟨scan.locals.map LocalVariable.erase, scan.closed.map fun _ => 0, scan.cursor.erase⟩

theorem Place.after_erase (place : Place) (t : Token) : place.after t.erase = place.after t := rfl

theorem scanBody_of_end {inner : Nat} {place : Place} {found : List LocalVariable} {c d : Cursor}
    (h : c.declarationsAt place = (found, d)) (hd : d.rest = []) :
    scanBody inner place c = ⟨found, none, d⟩ := by
  rw [scanBody]
  split
  next => rw [h]
  next t ts ht => simp [h, hd] at ht

@[simp] theorem scanBody_erase (inner : Nat) (place : Place) :
    scanBody inner place c.erase = (scanBody inner place c).erase := by
  fun_induction scanBody inner place c with
  | case1 inner place c hrest =>
    rw [scanBody_of_end (c.declarationsAt_erase place) (by rw [rest_erase, hrest, List.map_nil])]
    rfl
  | case2 inner place c t ts hrest d hclose =>
    rw [scanBody_eq (c.declarationsAt_erase place) (by rw [rest_erase, hrest, List.map_cons]),
      if_pos (by exact hclose), advance_erase]
    rfl
  | case3 inner place c t ts hrest d hclose _ tail ih =>
    rw [scanBody_eq (c.declarationsAt_erase place) (by rw [rest_erase, hrest, List.map_cons]),
      if_neg (by exact hclose), advance_erase, Place.after_erase, Token.kind_erase, ih]
    simp [BodyScan.erase, tail, d]

/-! ## Names of state variables -/

theorem variableName_eq :
    c.variableName = match c.name? with
      | some (name, d) =>
        if d.seesAny endsVariableName then (some name, d)
        else if c.sees .ident then
          if c.advance.sees (.opens .paren) then c.advance.skipGroup.2.variableName
          else c.advance.variableName
        else (none, c)
      | none => (none, c) := by
  rw [variableName]
  rfl

@[simp] theorem variableName_erase :
    c.erase.variableName = eraseFound (Option.map Name.erase) c.variableName := by
  fun_induction variableName c with
  | case1 c name d hname hends =>
    rw [variableName_eq, name?_erase, hname]
    simp [hends]
  | case2 c name d hname hends hident _ _ ih =>
    rw [variableName_eq, name?_erase, hname]
    simp_all
  | case3 c name d hname hends hident _ _ ih =>
    rw [variableName_eq, name?_erase, hname]
    simp_all
  | case4 c name d hname hends hident =>
    rw [variableName_eq, name?_erase, hname]
    simp_all
  | case5 c hname =>
    rw [variableName_eq, name?_erase, hname]
    rfl

end Cursor

end SolidityCompass
