import SolidityCompass.Proofs.PrintedTypes

/-!
# Reading printed functions

Parameters, bodies and functions are read back from their words, up to the places where they
stand.
-/

namespace SolidityCompass

open Spelling

namespace Cursor

variable {c d : Cursor} {v : Spelling} {after : List Spelling}

theorem location?_of_spelled {location : DataLocation}
    (h : c.spelled = word location.keyword :: after) :
    c.location? = some location ∧ c.skipLocation = c.advance := by
  have hlocation : c.location? = some location := by
    unfold location?
    rw [kind?_of_spelled h]
    cases location <;> rfl
  exact ⟨hlocation, by simp [skipLocation, hlocation]⟩

theorem location?_eq_none_of_spelled (h : c.spelled = v :: after)
    (hv : v.kind.isDataLocation = false) : c.location? = none ∧ c.skipLocation = c := by
  have hlocation : c.location? = none := by
    unfold location?
    rw [kind?_of_spelled h]
    split <;> simp_all [Kind.isDataLocation]
  exact ⟨hlocation, by simp [skipLocation, hlocation]⟩

end Cursor

namespace Reading

variable {r s : Reading} {v : Spelling} {after : List Spelling}

/-- A reader has found `x` but for the places, met no error, and stands before `after`. -/
structure Finds {α : Type} (erase : α → α) (x : α) (r : Reading) (after : List Spelling)
    (found : Option α × Reading) : Prop where
  value : found.1.map erase = some (erase x)
  spelled : found.2.cursor.spelled = after
  faults : found.2.faults = r.faults

theorem Finds.map_toList {α : Type} {erase : α → α} {x : α} {found : Option α × Reading}
    (h : Finds erase x r after found) : found.1.toList.map erase = [erase x] := by
  rw [← Option.toList_map, h.value, Option.toList_some]

structure FindsAll {α : Type} (erase : α → α) (xs : List α) (r : Reading)
    (after : List Spelling) (found : List α × Reading) : Prop where
  values : found.1.map erase = xs.map erase
  spelled : found.2.cursor.spelled = after
  faults : found.2.faults = r.faults

theorem typeName_of_spelled {T : TypeName} (hT : T.Canonical)
    (h : r.cursor.spelled = T.words ++ v :: after) (hv : Cursor.EndsBase v)
    (hsquare : v.kind ≠ .opens .square) :
    ∃ d, r.typeName = (some T, r.goTo d) ∧ d.spelled = v :: after := by
  obtain ⟨d, hd, hrest⟩ := Cursor.typeName_of_spelled hT h hv hsquare
  exact ⟨d, by simp [typeName, hd], hrest⟩

def EndsParameter (v : Spelling) : Prop :=
  v = comma ∨ v = closing .paren

/-- No word behind the type of a parameter can go on with the type. -/
theorem exists_word_after_type (location : Option DataLocation) {name : Option Name}
    (hname : ∀ n ∈ name, IsPlain n.text) (hv : EndsParameter v) (after : List Spelling) :
    ∃ w rest, locationWords location ++ (nameWords name ++ v :: after) = w :: rest ∧
      Cursor.EndsBase w ∧ w.kind ≠ .opens .square := by
  cases location with
  | some location =>
    refine ⟨_, _, rfl, ?_, by simp [word]⟩
    cases location <;> simp [Cursor.EndsBase, word, DataLocation.keyword]
  | none =>
    cases name with
    | some name =>
      exact ⟨_, _, rfl, Cursor.endsBase_of_not_reserved (hname name rfl).2, by simp [ident]⟩
    | none =>
      refine ⟨v, after, rfl, ?_⟩
      rcases hv with rfl | rfl
      · exact ⟨by simp [Cursor.EndsBase, comma], by simp [comma]⟩
      · exact ⟨by simp [Cursor.EndsBase, closing], by simp [closing]⟩

theorem skipLocation_of_spelled {location : Option DataLocation} {name : Option Name} {d : Cursor}
    (hv : EndsParameter v)
    (h : d.spelled = locationWords location ++ (nameWords name ++ v :: after)) :
    d.location? = location ∧ d.skipLocation.spelled = nameWords name ++ v :: after := by
  cases location with
  | some location =>
    obtain ⟨hlocation, hskip⟩ := Cursor.location?_of_spelled h
    rw [hskip]
    exact ⟨hlocation, Cursor.spelled_advance h⟩
  | none =>
    have hother : d.location? = none ∧ d.skipLocation = d := by
      cases name with
      | some name => exact Cursor.location?_eq_none_of_spelled h rfl
      | none =>
        refine Cursor.location?_eq_none_of_spelled h ?_
        rcases hv with rfl | rfl <;> rfl
    rw [hother.2]
    exact ⟨hother.1, h⟩

theorem parameter_of_spelled {p : Parameter} (hp : p.Canonical)
    (h : r.cursor.spelled = p.words ++ v :: after) (hv : EndsParameter v) :
    Finds Parameter.erase p r (v :: after) r.parameter := by
  obtain ⟨type, location, name, range⟩ := p
  obtain ⟨htype, hname⟩ := hp
  replace h : r.cursor.spelled =
      type.words ++ (locationWords location ++ (nameWords name ++ v :: after)) := by
    simpa [Parameter.words] using h
  obtain ⟨w, rest, hrest, hw, hsquare⟩ := exists_word_after_type location hname hv after
  obtain ⟨d, hd, hspelled⟩ := typeName_of_spelled htype (hrest ▸ h) hw hsquare
  obtain ⟨hlocation, hskip⟩ := skipLocation_of_spelled hv (hspelled.trans hrest.symm)
  unfold parameter
  simp only [hd, cursor_goTo, hlocation]
  cases name with
  | some name =>
    obtain ⟨found, hfound, htext⟩ := Cursor.name?_of_spelled hskip
    have hindexed : d.skipLocation.skipWords ["indexed"] = d.skipLocation := by
      refine Cursor.skipWords_of_spelled hskip fun _ hmem => ?_
      have hne := ne_of_not_reserved (hname name rfl).2 (show "indexed" ∈ reservedWords by decide)
      exact hne (by simpa [ident] using hmem)
    simp only [hindexed, hfound]
    exact ⟨by simp [Parameter.erase, Name.erase, htext], Cursor.spelled_advance hskip, rfl⟩
  | none =>
    have hindexed : d.skipLocation.skipWords ["indexed"] = d.skipLocation := by
      refine Cursor.skipWords_of_spelled hskip fun hk => ?_
      rcases hv with rfl | rfl <;> simp [comma, closing] at hk
    have hnone : d.skipLocation.name? = none := by
      refine Cursor.name?_eq_none_of_spelled hskip ?_
      rcases hv with rfl | rfl <;> rfl
    simp only [hindexed, hnone]
    exact ⟨by simp [Parameter.erase], hskip, rfl⟩

theorem commas_cons_cons (x y : List Spelling) (parts : List (List Spelling)) :
    commas (x :: y :: parts) = x ++ comma :: commas (y :: parts) := by
  simp [commas, List.intercalate_cons_cons]

theorem exists_commas_eq (x : List Spelling) (parts : List (List Spelling)) :
    ∃ rest, commas (x :: parts) = x ++ rest := by
  cases parts with
  | nil => exact ⟨[], by simp [commas]⟩
  | cons y parts => exact ⟨_, commas_cons_cons x y parts⟩

theorem parameters_eq (h : r.cursor.rest.isEmpty = false)
    (hclose : r.sees (.closes .paren) = false) :
    r.parameters = match r.parameter.2.cursor.eat? .comma with
      | some c => (r.parameter.1.toList ++ (r.parameter.2.goTo c).parameters.1,
          (r.parameter.2.goTo c).parameters.2)
      | none => (r.parameter.1.toList, r.parameter.2) := by
  rw [parameters, h, hclose]
  simp only [Bool.or_self, Bool.false_eq_true, if_false]
  split <;> simp_all

theorem not_sees_close_of_type {T : TypeName} (hT : T.Canonical) {rest : List Spelling}
    (h : r.cursor.spelled = T.words ++ rest) :
    r.cursor.rest.isEmpty = false ∧ r.sees (.closes .paren) = false := by
  obtain ⟨w, words, hwords, hw⟩ := Cursor.exists_first_word hT
  rw [hwords, List.cons_append] at h
  obtain ⟨t, ts, hr, -⟩ := Cursor.rest_of_spelled h
  refine ⟨by simp [hr], Cursor.not_sees_of_spelled h ?_⟩
  rcases hw with ⟨text, rfl, -⟩ | rfl | ⟨rfl, -⟩ <;> simp [ident, word]

theorem parameters_of_spelled {params : List Parameter} (hparams : ∀ p ∈ params, p.Canonical)
    (h : r.cursor.spelled = commas (params.map Parameter.words) ++ closing .paren :: after) :
    FindsAll Parameter.erase params r (closing .paren :: after) r.parameters := by
  induction params generalizing r with
  | nil =>
    have hs : r.sees (.closes .paren) = true := Cursor.sees_of_spelled h rfl
    rw [parameters, if_pos (by simp [hs])]
    exact ⟨rfl, h, rfl⟩
  | cons p params ih =>
    have hp := hparams p (by simp)
    obtain ⟨hsome, hclose⟩ : r.cursor.rest.isEmpty = false ∧ r.sees (.closes .paren) = false := by
      obtain ⟨rest, hrest⟩ := exists_commas_eq p.words (params.map Parameter.words)
      rw [List.map_cons, hrest, Parameter.words, List.append_assoc, List.append_assoc] at h
      exact not_sees_close_of_type hp.1 h
    rw [parameters_eq hsome hclose]
    -- What follows the parameter tells whether there are more: a comma or the parenthesis.
    cases params with
    | nil =>
      have hfound := parameter_of_spelled hp (by simpa [commas] using h) (Or.inr rfl)
      have heat : r.parameter.2.cursor.eat? .comma = none :=
        Cursor.eat?_eq_none_of_spelled hfound.spelled (by simp [closing])
      rw [heat]
      exact ⟨hfound.map_toList, hfound.spelled, hfound.faults⟩
    | cons q params =>
      rw [List.map_cons, List.map_cons, commas_cons_cons, List.append_assoc, List.cons_append] at h
      have hfound := parameter_of_spelled hp h (Or.inl rfl)
      have heat : r.parameter.2.cursor.eat? .comma = some _ :=
        Cursor.eat?_of_spelled hfound.spelled rfl
      have hrest := @ih (r.parameter.2.goTo r.parameter.2.cursor.advance)
        (fun p hp => hparams p (by simp [hp])) (Cursor.spelled_advance hfound.spelled)
      rw [heat]
      refine ⟨?_, hrest.spelled, hrest.faults.trans hfound.faults⟩
      rw [List.map_append, hfound.map_toList, hrest.values]
      rfl

theorem expect_of_spelled {kind : Kind} (h : r.cursor.spelled = v :: after) (hv : v.kind = kind) :
    r.expect kind = r.advance := by
  have hs : r.sees kind = true := Cursor.sees_of_spelled h hv
  rw [expect, if_pos hs]

theorem parameterList_of_spelled {params : List Parameter} (hparams : ∀ p ∈ params, p.Canonical)
    (h : r.cursor.spelled = listWords params ++ after) :
    ∃ found s, r.parameterList = (some found, s) ∧
      found.map Parameter.erase = params.map Parameter.erase ∧
      s.cursor.spelled = after ∧ s.faults = r.faults := by
  rw [listWords, List.cons_append, List.append_assoc, List.singleton_append] at h
  have hopen : r.sees (.opens .paren) = true := Cursor.sees_of_spelled h rfl
  have hfound := @parameters_of_spelled r.advance after params hparams (Cursor.spelled_advance h)
  have hclose : r.advance.parameters.2.expect (.closes .paren) = _ :=
    expect_of_spelled hfound.spelled rfl
  refine ⟨r.advance.parameters.1, r.advance.parameters.2.advance, ?_, hfound.values,
    Cursor.spelled_advance hfound.spelled, hfound.faults⟩
  rw [parameterList, if_pos hopen]
  dsimp only
  rw [hclose]

def EndsHeader (v : Spelling) : Prop :=
  v = semicolon ∨ v = opening .brace

theorem functionHeader_of_end (returns : List Parameter) (h : r.cursor.spelled = v :: after)
    (hv : EndsHeader v) : r.functionHeader returns = (returns, r) := by
  have hk : r.kind? = some v.kind := Cursor.kind?_of_spelled h
  rw [functionHeader]
  split
  next hnone => simp [hnone] at hk
  next kind hkind =>
    obtain rfl : kind = v.kind := Option.some.inj (hkind.symm.trans hk)
    rcases hv with rfl | rfl <;> simp [semicolon, opening, endsHeader]

theorem functionHeader_of_spelled {f : Function} (hreturns : ∀ p ∈ f.returns, p.Canonical)
    (h : r.cursor.spelled = f.returnsWords ++ v :: after) (hv : EndsHeader v) :
    FindsAll Parameter.erase f.returns r (v :: after) (r.functionHeader []) := by
  unfold Function.returnsWords at h
  split at h
  next hnil =>
    rw [functionHeader_of_end [] h hv, hnil]
    exact ⟨rfl, h, rfl⟩
  next =>
    have hk : r.kind? = some (.keyword .returnsKw) := Cursor.kind?_of_spelled h
    obtain ⟨found, s, hfound, hvalues, hspelled, hfaults⟩ :=
      @parameterList_of_spelled r.advance _ f.returns hreturns (Cursor.spelled_advance h)
    rw [functionHeader]
    split
    next hnone => simp [hnone] at hk
    next kind hkind =>
      obtain rfl : kind = .keyword .returnsKw := Option.some.inj (hkind.symm.trans hk)
      simp only [if_true, hfound, Option.getD_some]
      rw [functionHeader_of_end found hspelled hv]
      exact ⟨hvalues, hspelled, hfaults⟩

end Reading

namespace Cursor

variable {c d : Cursor} {v : Spelling} {after : List Spelling}

theorem startsDeclaration_of_first {w : Spelling} (h : c.spelled = w :: after)
    (hw : w.kind.isName = true ∨ w.kind = .keyword .mappingKw)
    (hword : ¬ w.IsWord statementWords) : c.rest.head?.any startsDeclaration = true := by
  obtain ⟨t, ts, hr, hk, htext, -⟩ := rest_of_spelled h
  have hstatement : ¬ (t.kind = .ident ∧ t.text ∈ statementWords) := by rwa [hk, htext]
  rw [← hk] at hw
  simpa [hr, startsDeclaration, hw] using not_and_or.mp hstatement

/-- A variable declaration begins with a word that can begin one in a body. -/
theorem startsDeclaration_of_spelled {type : TypeName} (hT : type.Canonical)
    (hfunction : ¬ type.StartsFunction) {rest : List Spelling}
    (h : c.spelled = type.words ++ rest) :
    c.rest.head?.any startsDeclaration = true ∧ c.sees (.opens .paren) = false := by
  obtain ⟨w, words, hwords, hw⟩ := exists_first_word hT
  rw [hwords, List.cons_append] at h
  rcases hw with ⟨text, rfl, hplain⟩ | rfl | ⟨-, hstarts⟩
  · have hstatement : text ∉ statementWords := fun hmem => hplain (by simp [reservedWords, hmem])
    exact ⟨startsDeclaration_of_first h (Or.inl rfl) fun hword => hstatement hword.2,
      not_sees_of_spelled h (by simp [ident])⟩
  · exact ⟨startsDeclaration_of_first h (Or.inr rfl) (fun hword => by cases hword.1),
      not_sees_of_spelled h (by simp [word])⟩
  · exact absurd hstarts hfunction

/-- Where a type has been read and a name and a semicolon follow, there is a declaration. -/
theorem declarationHead?_of_typeName {type : TypeName} {text : String}
    (hstart : c.rest.head?.any startsDeclaration = true) (hd : c.typeName = (some type, d))
    (hrest : d.spelled = ident text :: semicolon :: after) :
    ∃ found : LocalVariable, c.declarationHead? = some (found, d.advance) ∧
      found.type = type ∧ found.name.text = text := by
  obtain ⟨-, hskip⟩ := location?_eq_none_of_spelled hrest rfl
  obtain ⟨name, hname, htext⟩ := name?_of_spelled hrest
  refine ⟨⟨type, name, ⟨c.here.start, name.range.stop⟩⟩, ?_, rfl, htext⟩
  rw [declarationHead?, if_pos hstart, hd]
  dsimp only
  rw [hskip, hname, Option.map_some]

theorem declarations_of_typeName {type : TypeName} {text : String}
    (hstart : c.rest.head?.any startsDeclaration = true)
    (hparen : c.sees (.opens .paren) = false) (hd : c.typeName = (some type, d))
    (hrest : d.spelled = ident text :: semicolon :: after) :
    ∃ found : LocalVariable, c.declarations = ([found], d.advance) ∧
      found.type = type ∧ found.name.text = text := by
  obtain ⟨found, hfound, htype, htext⟩ := declarationHead?_of_typeName hstart hd hrest
  have hsemi : d.advance.sees .semicolon = true := sees_of_spelled (spelled_advance hrest) rfl
  refine ⟨found, ?_, htype, htext⟩
  simp [declarations, declarations?, hparen, hfound, Option.filter, hsemi]

theorem declarations_of_spelled {type : TypeName} {name : Name} (hdecl : IsDeclaration type name)
    (h : c.spelled = declarationWords type name ++ after) :
    ∃ found d, c.declarations = ([found], d) ∧
      found.erase = (⟨type, name, .empty 0⟩ : LocalVariable).erase ∧
      d.spelled = semicolon :: after := by
  obtain ⟨hT, hfunction, hplain⟩ := hdecl
  rw [declarationWords, List.append_assoc, List.cons_append, List.singleton_append] at h
  obtain ⟨hstart, hparen⟩ := startsDeclaration_of_spelled hT hfunction h
  obtain ⟨d, hd, hrest⟩ := typeName_of_spelled hT h (endsBase_of_not_reserved hplain.2)
    (by simp [ident])
  obtain ⟨found, hfound, htype, htext⟩ := declarations_of_typeName hstart hparen hd hrest
  refine ⟨found, d.advance, hfound, ?_, spelled_advance hrest⟩
  simp [LocalVariable.erase, Name.erase, htype, htext]

theorem declarations_of_close (h : c.spelled = closing .brace :: after) :
    c.declarations = ([], c) := by
  obtain ⟨t, ts, hr, hk, -⟩ := rest_of_spelled h
  have hparen : c.sees (.opens .paren) = false := not_sees_of_spelled h (by simp [closing])
  have hhead : c.declarationHead? = none := by
    rw [declarationHead?, if_neg]
    simp [hr, startsDeclaration, hk, closing, Kind.isName, Kind.isContextual]
  simp [declarations, declarations?, hparen, hhead]

/-- The walk stands before `t` once it has read the declarations at its place. -/
theorem scanBody_eq {inner : Nat} {place : Place} {found : List LocalVariable} {t : Token}
    {ts : List Token} (h : c.declarationsAt place = (found, d)) (ht : d.rest = t :: ts) :
    scanBody inner place c =
      if t.kind = .closes .brace && inner = 0 then ⟨found, some t.range.stop, d.advance⟩
      else { scanBody (blocksAfter inner t.kind) (place.after t) d.advance with
        locals := found ++
          (scanBody (blocksAfter inner t.kind) (place.after t) d.advance).locals } := by
  have hrest : (c.declarationsAt place).2.rest = t :: ts := by rw [h, ht]
  rw [scanBody]
  split
  next hnil => simp [hrest] at hnil
  next u us hu =>
    obtain ⟨rfl, -⟩ := List.cons.inj (hu.symm.trans hrest)
    simp [h]

/-- Behind the semicolon of a declaration the walk is at the start of a statement again, in the
same block. -/
theorem scanBody_of_declarations {inner : Nat} {found : List LocalVariable}
    (h : c.declarations = (found, d)) (hrest : d.spelled = semicolon :: after) :
    scanBody inner .fresh c = { scanBody inner .fresh d.advance with
      locals := found ++ (scanBody inner .fresh d.advance).locals } := by
  have hat : c.declarationsAt .fresh = (found, d) := by rw [declarationsAt, if_pos rfl, h]
  obtain ⟨t, ts, hr, hk, -⟩ := rest_of_spelled hrest
  have hplace : Place.after .fresh t = .fresh := by simp [Place.after, hk, semicolon]
  have hblocks : blocksAfter inner t.kind = inner := by simp [blocksAfter, hk, semicolon]
  rw [scanBody_eq hat hr, if_neg (by simp [hk, semicolon]), hplace, hblocks]

/-- A printed body is walked over declaration by declaration, up to its brace. -/
theorem scanBody_of_spelled {locals : List LocalVariable}
    (hlocals : ∀ v ∈ locals, IsDeclaration v.type v.name)
    (h : c.spelled = locals.flatMap (fun v => declarationWords v.type v.name) ++
      closing .brace :: after) :
    (scanBody 0 .fresh c).locals.map LocalVariable.erase = locals.map LocalVariable.erase ∧
      (scanBody 0 .fresh c).closed.isSome = true ∧
      (scanBody 0 .fresh c).cursor.spelled = after := by
  induction locals generalizing c with
  | nil =>
    have hat : c.declarationsAt .fresh = ([], c) := by
      rw [declarationsAt, if_pos rfl, declarations_of_close h]
    obtain ⟨t, ts, hr, hk, -⟩ := rest_of_spelled h
    rw [scanBody_eq hat hr, if_pos (by simp [hk, closing])]
    exact ⟨rfl, rfl, spelled_advance h⟩
  | cons v locals ih =>
    rw [List.flatMap_cons, List.append_assoc] at h
    obtain ⟨found, d, hd, hfound, hrest⟩ := declarations_of_spelled (hlocals v (by simp)) h
    obtain ⟨hvalues, hclosed, hspelled⟩ := @ih d.advance (fun v hv => hlocals v (by simp [hv]))
      (spelled_advance hrest)
    rw [scanBody_of_declarations hd hrest]
    refine ⟨?_, hclosed, hspelled⟩
    rw [List.map_append, hvalues, List.map_singleton, hfound]
    rfl

end Cursor

namespace Reading

variable {r s : Reading} {v : Spelling} {after : List Spelling}

theorem expectName_of_spelled {text : String} (role : NameRole)
    (h : r.cursor.spelled = ident text :: after) :
    ∃ name : Name, r.expectName role = (some name, r.advance) ∧ name.text = text := by
  obtain ⟨name, hname, htext⟩ := Cursor.name?_of_spelled h
  exact ⟨name, by rw [expectName, hname]; rfl, htext⟩

theorem functionBody_of_spelled {b : Body} (hb : ∀ v ∈ b.locals, IsDeclaration v.type v.name)
    (h : r.cursor.spelled = b.words ++ after) :
    r.functionBody.1.erase = b.erase ∧ r.functionBody.2.cursor.spelled = after ∧
      r.functionBody.2.faults = r.faults := by
  rw [Body.words, List.cons_append, List.append_assoc, List.singleton_append] at h
  obtain ⟨hvalues, hclosed, hspelled⟩ := Cursor.scanBody_of_spelled hb (Cursor.spelled_advance h)
  obtain ⟨stop, hstop⟩ := Option.isSome_iff_exists.mp hclosed
  unfold functionBody
  dsimp only
  rw [hstop]
  exact ⟨by simp [Body.erase, hvalues], hspelled, rfl⟩

/-- The kind and the name of a function stand before its parameters. -/
theorem functionName_of_spelled {f : Function} (hf : f.NameFits)
    (h : r.cursor.spelled = f.headWords ++ opening .paren :: after) :
    ∃ name s, r.functionName = (some (f.kind, name), s) ∧ name.text = f.name.text ∧
      s.cursor.spelled = opening .paren :: after ∧ s.faults = r.faults := by
  obtain ⟨kind, name, params, returns, body, range⟩ := f
  cases kind with
  | function =>
    have hk : r.kind? = some (.keyword .functionKw) := Cursor.kind?_of_spelled h
    have hname := Cursor.spelled_advance h
    have hopen : r.advance.sees (.opens .paren) = false :=
      Cursor.not_sees_of_spelled hname (by simp [ident])
    obtain ⟨found, hfound, htext⟩ := expectName_of_spelled (r := r.advance) .function hname
    refine ⟨found, r.advance.advance, ?_, htext, Cursor.spelled_advance hname, rfl⟩
    simp [functionName, hk, hopen, hfound]
  | constructor =>
    have hk : r.kind? = some (.keyword .constructorKw) := Cursor.kind?_of_spelled h
    exact ⟨⟨"constructor", r.here⟩, r.advance, by simp [functionName, hk], hf.symm,
      Cursor.spelled_advance h, rfl⟩
  | fallback =>
    have hk : r.kind? = some (.keyword .fallbackKw) := Cursor.kind?_of_spelled h
    exact ⟨⟨"fallback", r.here⟩, r.advance, by simp [functionName, hk], hf.symm,
      Cursor.spelled_advance h, rfl⟩
  | receive =>
    have hk : r.kind? = some (.keyword .receiveKw) := Cursor.kind?_of_spelled h
    exact ⟨⟨"receive", r.here⟩, r.advance, by simp [functionName, hk], hf.symm,
      Cursor.spelled_advance h, rfl⟩

theorem function_of_spelled {f : Function} (hf : f.Canonical)
    (h : r.cursor.spelled = f.words ++ after) :
    Finds Function.erase f r after r.function := by
  obtain ⟨hname, hparams, hreturns, hlocals⟩ := hf
  rw [Function.words, List.append_assoc, List.append_assoc, List.append_assoc] at h
  obtain ⟨name, s, hs, htext, hspelled, hfaults⟩ := functionName_of_spelled hname h
  obtain ⟨params, t, ht, hvalues, hrest, hkept⟩ := parameterList_of_spelled hparams hspelled
  rw [hfaults] at hkept
  unfold function
  simp only [hs, ht]
  cases hbody : f.body with
  | none =>
    rw [Function.bodyWords, hbody] at hrest
    have hheader := functionHeader_of_spelled hreturns hrest (Or.inl rfl)
    have hopen : (t.functionHeader []).2.sees (.opens .brace) = false :=
      Cursor.not_sees_of_spelled hheader.spelled (by simp [semicolon])
    have hsemi : (t.functionHeader []).2.expect .semicolon = _ :=
      expect_of_spelled hheader.spelled rfl
    rw [hopen, hsemi]
    refine ⟨?_, Cursor.spelled_advance hheader.spelled, hheader.faults.trans hkept⟩
    simp [Function.erase, Name.erase, htext, hvalues, hheader.values, hbody]
  | some b =>
    rw [Function.bodyWords, hbody] at hrest
    have hheader := functionHeader_of_spelled hreturns hrest (Or.inr rfl)
    have hopen : (t.functionHeader []).2.sees (.opens .brace) = true :=
      Cursor.sees_of_spelled hheader.spelled rfl
    have hlocals' : ∀ v ∈ b.locals, IsDeclaration v.type v.name := by
      simpa [Function.locals, hbody] using hlocals
    obtain ⟨hb, hend, hquiet⟩ := functionBody_of_spelled hlocals' hheader.spelled
    rw [hopen]
    refine ⟨?_, hend, hquiet.trans (hheader.faults.trans hkept)⟩
    simp [Function.erase, Name.erase, htext, hvalues, hheader.values, hbody, hb]

theorem event_of_spelled {e : Event} (he : e.Canonical)
    (h : r.cursor.spelled = e.words ++ after) : Finds Event.erase e r after r.event := by
  obtain ⟨-, hparams⟩ := he
  rw [Event.words, List.cons_append, List.cons_append, List.append_assoc,
    List.singleton_append] at h
  have hname := Cursor.spelled_advance h
  obtain ⟨name, hfound, htext⟩ := expectName_of_spelled (r := r.advance) .event hname
  have hlist := Cursor.spelled_advance hname
  obtain ⟨params, s, hs, hvalues, hrest, hkept⟩ :=
    parameterList_of_spelled (r := r.advance.advance) hparams hlist
  have hanonymous : s.cursor.skipWord "anonymous" = s.cursor :=
    Cursor.skipWord_of_spelled hrest (by simp [semicolon])
  unfold event
  simp only [hfound, hs, hanonymous]
  have hsemi : (s.goTo s.cursor).expect .semicolon = s.advance := expect_of_spelled hrest rfl
  rw [hsemi]
  refine ⟨?_, Cursor.spelled_advance hrest, hkept⟩
  simp [Event.erase, Name.erase, htext, hvalues]

end Reading

end SolidityCompass
