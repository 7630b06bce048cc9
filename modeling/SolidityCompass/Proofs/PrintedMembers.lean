import SolidityCompass.Proofs.PrintedFunctions

/-!
# Reading printed members

The words of a member end with a semicolon or a brace, so a member is read back whatever stands
behind it. The parts of a block follow one another without anything between.
-/

namespace SolidityCompass

open Spelling

namespace Cursor

variable {c : Cursor} {after : List Spelling}

theorem skipItem_of_semicolon (h : c.spelled = semicolon :: after) : c.skipItem = c.advance := by
  obtain ⟨t, ts, hr, hk, -⟩ := rest_of_spelled h
  have hlength : itemLength 0 c.rest = 1 := by simp [itemLength, hr, hk, semicolon]
  rw [skipItem, hlength, skip_succ, skip_zero]

theorem variableName_of_spelled {text : String}
    (h : c.spelled = ident text :: semicolon :: after) :
    ∃ name : Name, c.variableName = (some name, c.advance) ∧ name.text = text := by
  obtain ⟨name, hname, htext⟩ := name?_of_spelled h
  have hends : c.advance.seesAny endsVariableName = true := by
    simp [seesAny, kind?_of_spelled (spelled_advance h), semicolon, endsVariableName]
  refine ⟨name, ?_, htext⟩
  rw [variableName]
  split
  next found d hfound =>
    obtain ⟨rfl, rfl⟩ := Prod.mk.inj (Option.some.inj (hfound.symm.trans hname))
    rw [if_pos hends]
  next hnone => exact absurd (hnone.symm.trans hname) (by simp)

end Cursor

namespace Reading

variable {r : Reading} {after : List Spelling}

section block

variable {α : Type} {name : Block} {part : Reading → Option α × Reading}
  {progress : ∀ {r : Reading} {kind : Kind}, r.kind? = some kind → kind ≠ .closes .brace →
    r.Passes (part r).2}

theorem block_eq {kind : Kind} (h : r.kind? = some kind) :
    r.block name part progress = if kind = .closes .brace then ([], r.advance)
      else ((part r).1.toList ++ ((part r).2.block name part progress).1,
        ((part r).2.block name part progress).2) := by
  rw [block]
  split
  next hnone => simp [hnone] at h
  next other hother =>
    obtain rfl : other = kind := Option.some.inj (hother.symm.trans h)
    split <;> rfl

/-- A block is read back if each of its parts is, whatever stands behind the part. -/
theorem block_of_spelled {erase : α → α} {words : α → List Spelling} {parts : List α}
    (hpart : ∀ x ∈ parts, ∀ (r : Reading) (after : List Spelling),
      r.cursor.spelled = words x ++ after → Finds erase x r after (part r))
    (hfirst : ∀ x ∈ parts, ∃ w rest, words x = w :: rest ∧ w.kind ≠ .closes .brace)
    (h : r.cursor.spelled = parts.flatMap words ++ closing .brace :: after) :
    FindsAll erase parts r after (r.block name part progress) := by
  induction parts generalizing r with
  | nil =>
    have hk : r.kind? = some (.closes .brace) := Cursor.kind?_of_spelled h
    rw [block_eq hk, if_pos rfl]
    exact ⟨rfl, Cursor.spelled_advance h, rfl⟩
  | cons x parts ih =>
    rw [List.flatMap_cons, List.append_assoc] at h
    have hfound := hpart x (by simp) r _ h
    obtain ⟨w, rest, hw, hclose⟩ := hfirst x (by simp)
    rw [hw, List.cons_append] at h
    have hk : r.kind? = some w.kind := Cursor.kind?_of_spelled h
    have htail := ih (fun y hy => hpart y (by simp [hy])) (fun y hy => hfirst y (by simp [hy]))
      hfound.spelled
    rw [block_eq hk, if_neg hclose]
    refine ⟨?_, htail.spelled, htail.faults.trans hfound.faults⟩
    rw [List.map_append, hfound.map_toList, htail.values]
    rfl

end block

theorem typeName_of_declaration {type : TypeName} {name : Name} (htype : type.Canonical)
    (hname : IsPlain name.text) (h : r.cursor.spelled = declarationWords type name ++ after) :
    ∃ d, r.typeName = (some type, r.goTo d) ∧
      d.spelled = ident name.text :: semicolon :: after := by
  rw [declarationWords, List.append_assoc, List.cons_append, List.singleton_append] at h
  exact typeName_of_spelled htype h (Cursor.endsBase_of_not_reserved hname.2) (by simp [ident])

/-- Where a type has been read and a name and a semicolon follow, there is a field. -/
theorem field_of_typeName {type : TypeName} {text : String} {d : Cursor}
    (hd : r.typeName = (some type, r.goTo d))
    (hrest : d.spelled = ident text :: semicolon :: after) :
    ∃ found : Field, r.field = (some found, r.goTo d.advance.advance) ∧
      found.type = type ∧ found.name.text = text := by
  obtain ⟨name, hname, htext⟩ := expectName_of_spelled (r := r.goTo d) .field hrest
  have hsemi : (r.goTo d).advance.expect .semicolon = _ :=
    expect_of_spelled (Cursor.spelled_advance hrest) rfl
  refine ⟨⟨type, name⟩, ?_, rfl, htext⟩
  unfold field
  simp only [hd, hname, hsemi]
  rfl

theorem field_of_spelled {f : Field} (htype : f.type.Canonical) (hname : IsPlain f.name.text)
    (h : r.cursor.spelled = declarationWords f.type f.name ++ after) :
    Finds Field.erase f r after r.field := by
  obtain ⟨d, hd, hrest⟩ := typeName_of_declaration htype hname h
  obtain ⟨found, hfound, htype, htext⟩ := field_of_typeName hd hrest
  rw [hfound]
  refine ⟨?_, Cursor.spelled_advance (Cursor.spelled_advance hrest), rfl⟩
  simp [Field.erase, Name.erase, htype, htext]

theorem blockName_of_spelled {text : String} (role : NameRole)
    (h : r.cursor.spelled = ident text :: opening .brace :: after) :
    ∃ name : Name, r.blockName role = (some name, r.advance.advance) ∧ name.text = text := by
  obtain ⟨name, hname, htext⟩ := expectName_of_spelled role h
  have hopen : r.advance.sees (.opens .brace) = true :=
    Cursor.sees_of_spelled (Cursor.spelled_advance h) rfl
  exact ⟨name, by simp [blockName, hname, hopen], htext⟩

/-- No type is written with a closing brace in front. -/
theorem first_word_ne_close {type : TypeName} (htype : type.Canonical) (words : List Spelling) :
    ∃ w rest, type.words ++ words = w :: rest ∧ w.kind ≠ .closes .brace := by
  obtain ⟨w, rest, hwords, hw⟩ := Cursor.exists_first_word htype
  refine ⟨w, rest ++ words, by rw [hwords, List.cons_append], ?_⟩
  rcases hw with ⟨text, rfl, -⟩ | rfl | ⟨rfl, -⟩ <;> simp [ident, word]

theorem struct_of_spelled {s : Struct} (hs : s.Canonical)
    (h : r.cursor.spelled = s.words ++ after) : Finds Struct.erase s r after r.struct := by
  obtain ⟨-, hfields⟩ := hs
  rw [Struct.words, List.cons_append, List.cons_append, List.cons_append, List.append_assoc,
    List.singleton_append] at h
  have hname := Cursor.spelled_advance h
  obtain ⟨name, hfound, htext⟩ := blockName_of_spelled (r := r.advance) .struct hname
  have hall : FindsAll Field.erase s.fields r.advance.advance.advance after
      (r.advance.advance.advance.block .struct field passes_field) :=
    block_of_spelled (fun f hf _ _ h => field_of_spelled (hfields f hf).1 (hfields f hf).2 h)
      (fun f hf => first_word_ne_close (hfields f hf).1 _)
      (Cursor.spelled_advance (Cursor.spelled_advance hname))
  unfold struct
  simp only [hfound]
  refine ⟨?_, hall.spelled, hall.faults⟩
  simp [Struct.erase, Name.erase, htext, hall.values]

theorem enumMembers_eq {kind : Kind} (h : r.kind? = some kind) :
    r.enumMembers = if kind = .closes .brace then ([], r.advance)
      else if r.enumMember.2.sees .comma then
        (r.enumMember.1.toList ++ r.enumMember.2.advance.enumMembers.1,
          r.enumMember.2.advance.enumMembers.2)
      else (r.enumMember.1.toList, r.enumMember.2.expect (.closes .brace)) := by
  rw [enumMembers]
  split
  next hnone => simp [hnone] at h
  next other hother =>
    obtain rfl : other = kind := Option.some.inj (hother.symm.trans h)
    rfl

theorem enumMembers_of_spelled {members : List Name}
    (h : r.cursor.spelled =
      commas (members.map fun m => [ident m.text]) ++ closing .brace :: after) :
    FindsAll Name.erase members r after r.enumMembers := by
  induction members generalizing r with
  | nil =>
    have hk : r.kind? = some (.closes .brace) := Cursor.kind?_of_spelled h
    rw [enumMembers_eq hk, if_pos rfl]
    exact ⟨rfl, Cursor.spelled_advance h, rfl⟩
  | cons m members ih =>
    obtain ⟨rest, hrest⟩ := exists_commas_eq [ident m.text] (members.map fun m => [ident m.text])
    have hfirst : r.cursor.spelled = ident m.text :: (rest ++ closing .brace :: after) := by
      rw [h, List.map_cons, hrest, List.append_assoc, List.singleton_append]
    have hk : r.kind? = some .ident := Cursor.kind?_of_spelled hfirst
    obtain ⟨name, hname, htext⟩ := Cursor.name?_of_spelled hfirst
    have hmember : r.enumMember = (some name, r.advance) := by
      rw [enumMember, hname]
      rfl
    have herase : name.erase = m.erase := by simp [Name.erase, htext]
    rw [enumMembers_eq hk, if_neg (by simp), hmember]
    cases members with
    | nil =>
      rw [List.map_singleton, commas, List.intercalate_singleton, List.singleton_append] at h
      have hclose := Cursor.spelled_advance h
      have hcomma : r.advance.sees .comma = false :=
        Cursor.not_sees_of_spelled hclose (by simp [closing])
      have hend : r.advance.expect (.closes .brace) = _ := expect_of_spelled hclose rfl
      rw [hcomma, hend]
      exact ⟨by simp [herase], Cursor.spelled_advance hclose, rfl⟩
    | cons n members =>
      rw [List.map_cons, List.map_cons, commas_cons_cons, List.append_assoc, List.cons_append] at h
      have hnext := Cursor.spelled_advance h
      have hcomma : r.advance.sees .comma = true := Cursor.sees_of_spelled hnext rfl
      have htail := @ih r.advance.advance (Cursor.spelled_advance hnext)
      rw [hcomma]
      refine ⟨?_, htail.spelled, htail.faults⟩
      simp [herase, htail.values]

theorem enum_of_spelled {e : Enum} (h : r.cursor.spelled = e.words ++ after) :
    Finds Enum.erase e r after r.enum := by
  rw [Enum.words, List.cons_append, List.cons_append, List.cons_append, List.append_assoc,
    List.singleton_append] at h
  have hname := Cursor.spelled_advance h
  obtain ⟨name, hfound, htext⟩ := blockName_of_spelled (r := r.advance) .enum hname
  have hall := @enumMembers_of_spelled r.advance.advance.advance _ _
    (Cursor.spelled_advance (Cursor.spelled_advance hname))
  unfold enum
  simp only [hfound]
  refine ⟨?_, hall.spelled, hall.faults⟩
  simp [Enum.erase, Name.erase, htext, hall.values]

theorem usingEnd_of_spelled (h : r.cursor.spelled = semicolon :: after) :
    r.usingEnd = r.advance := by
  rw [usingEnd, Cursor.skipWord_of_spelled h (by simp [semicolon])]
  exact expect_of_spelled h rfl

theorem usingFor_of_spelled {u : Using} (hu : u.Canonical)
    (h : r.cursor.spelled = u.words ++ after) : Finds Using.erase u r after r.usingFor := by
  obtain ⟨library, target, range⟩ := u
  obtain ⟨-, htarget⟩ := hu
  rw [Using.words, List.cons_append, List.append_assoc, List.cons_append, List.append_assoc,
    List.singleton_append] at h
  have hlibrary := Cursor.spelled_advance h
  have hbrace : r.advance.sees (.opens .brace) = false := by
    obtain ⟨first, others, hfirst, -⟩ := exists_dotted_eq library
    have hspelled := hlibrary
    rw [hfirst, List.cons_append] at hspelled
    exact Cursor.not_sees_of_spelled hspelled (by simp [ident])
  obtain ⟨d, hd, hfor⟩ := Cursor.path?_of_dotted hlibrary (by simp [word])
  have heat : d.eat? (.keyword .forKw) = some d.advance := Cursor.eat?_of_spelled hfor rfl
  have hrest := Cursor.spelled_advance hfor
  unfold usingFor
  simp only [hbrace, cursor_advance, hd, heat]
  cases target with
  | none =>
    have hstar : d.advance.sees .star = true := Cursor.sees_of_spelled hrest rfl
    have hsemi := Cursor.spelled_advance hrest
    rw [hstar, usingEnd_of_spelled (r := r.goTo d.advance.advance) hsemi]
    exact ⟨rfl, Cursor.spelled_advance hsemi, rfl⟩
  | some target =>
    have htype := htarget target rfl
    have hstar : d.advance.sees .star = false := by
      obtain ⟨w, rest, hwords, hw⟩ := Cursor.exists_first_word htype
      have hspelled := hrest
      rw [Option.map_some, Option.getD_some, hwords, List.cons_append] at hspelled
      refine Cursor.not_sees_of_spelled hspelled ?_
      rcases hw with ⟨text, rfl, -⟩ | rfl | ⟨rfl, -⟩ <;> simp [ident, word]
    obtain ⟨e, he, hsemi⟩ := typeName_of_spelled (r := r.goTo d.advance) htype hrest
      (by simp [Cursor.EndsBase, semicolon])
      (by simp [semicolon])
    rw [hstar]
    simp only [he]
    rw [usingEnd_of_spelled (r := (r.goTo d.advance).goTo e) hsemi]
    exact ⟨rfl, Cursor.spelled_advance hsemi, rfl⟩

/-- Where a type has been read and a name and a semicolon follow, there is a state variable. -/
theorem stateVariable_of_typeName {type : TypeName} {text : String} {d : Cursor}
    (hd : r.typeName = (some type, r.goTo d))
    (hrest : d.spelled = ident text :: semicolon :: after) :
    ∃ found : StateVariable, r.stateVariable = (some found, r.goTo d.advance.advance) ∧
      found.type = type ∧ found.name.text = text := by
  obtain ⟨name, hname, htext⟩ := Cursor.variableName_of_spelled hrest
  have hskip := Cursor.skipItem_of_semicolon (Cursor.spelled_advance hrest)
  refine ⟨⟨type, name, (r.goTo d.advance.advance).rangeFrom r.here.start⟩, ?_, rfl, htext⟩
  unfold stateVariable
  simp only [hd, cursor_goTo, hname, skipItem, hskip]
  rfl

theorem stateVariable_of_spelled {v : StateVariable} (hv : IsDeclaration v.type v.name)
    (h : r.cursor.spelled = declarationWords v.type v.name ++ after) :
    Finds StateVariable.erase v r after r.stateVariable := by
  obtain ⟨d, hd, hrest⟩ := typeName_of_declaration hv.1 hv.2.2 h
  obtain ⟨found, hfound, htype, htext⟩ := stateVariable_of_typeName hd hrest
  rw [hfound]
  refine ⟨?_, Cursor.spelled_advance (Cursor.spelled_advance hrest), rfl⟩
  simp [StateVariable.erase, Name.erase, htype, htext]

/-- A member whose first word begins no other member is a state variable. `error` and `type` begin
other members by their text only, `fallback` and `receive` only before a parenthesis. -/
theorem member_eq_stateVariable {w : Spelling} (h : r.cursor.spelled = w :: after)
    (hw : w.kind.isName = true ∨ w.kind = .keyword .mappingKw)
    (hword : ¬ w.IsWord ["error", "type"])
    (hparen : w.kind.isContextual = true → r.cursor.kindAfter? 1 ≠ some (.opens .paren)) :
    r.member = (r.stateVariable.1.map .variable, r.stateVariable.2) := by
  have hk : r.kind? = some w.kind := Cursor.kind?_of_spelled h
  have hsees (kind : Kind) : r.sees kind = (some w.kind == some kind) := by
    rw [sees, Cursor.sees, Cursor.kind?_of_spelled h]
  have herror : r.cursor.seesWord "error" = false :=
    Cursor.not_seesWord_of_spelled h fun hident htext => hword ⟨hident, by simp [htext]⟩
  have htype : r.cursor.seesWord "type" = false :=
    Cursor.not_seesWord_of_spelled h fun hident htext => hword ⟨hident, by simp [htext]⟩
  have hfallback : ((r.sees (.keyword .fallbackKw) || r.sees (.keyword .receiveKw)) &&
      r.cursor.kindAfter? 1 == some (.opens .paren)) = false := by
    by_cases hcontextual : w.kind.isContextual = true
    · simp [hparen hcontextual]
    · have hne : w.kind ≠ .keyword .fallbackKw ∧ w.kind ≠ .keyword .receiveKw :=
        ⟨fun he => hcontextual (by rw [he]; rfl), fun he => hcontextual (by rw [he]; rfl)⟩
      simp [hsees, hne.1, hne.2]
  have hpassed : r.isPassedOver = false := by
    have hmodifier : w.kind ≠ .keyword .modifierKw := by
      rintro he
      simp [he, Kind.isName, Kind.isContextual] at hw
    simp [isPassedOver, hsees, hmodifier, herror, htype]
  have hfirst {kind : Kind} (hkind : r.kind? = some kind) :
      kind.isName = true ∨ kind = .keyword .mappingKw :=
    Option.some.inj (hk.symm.trans hkind) ▸ hw
  unfold member
  split
  case h_8 =>
    rw [hfallback, hpassed]
    rfl
  all_goals
    next hkind => simpa [Kind.isName, Kind.isContextual] using hfirst hkind

/-- A state variable begins with a word that begins no other member. -/
theorem member_of_variable {v : StateVariable} (hv : IsDeclaration v.type v.name)
    (h : r.cursor.spelled = declarationWords v.type v.name ++ after) :
    r.member = (r.stateVariable.1.map .variable, r.stateVariable.2) := by
  obtain ⟨w, words, hwords, hw⟩ := Cursor.exists_first_word hv.1
  rw [declarationWords, hwords, List.cons_append, List.cons_append] at h
  rcases hw with ⟨first, rfl, hplain⟩ | rfl | ⟨-, hfunction⟩
  · have hsubset : ∀ x ∈ ["error", "type"], x ∈ reservedWords := by decide
    exact member_eq_stateVariable h (Or.inl rfl) (fun hw => hplain (hsubset first hw.2))
      (fun hident => by cases hident)
  · exact member_eq_stateVariable h (Or.inr rfl) (fun hw => by cases hw.1)
      (fun hword => by cases hword)
  · exact absurd hfunction hv.2.1

theorem member_of_function {f : Function} (h : r.cursor.spelled = f.words ++ after) :
    r.member = (r.function.1.map .function, r.function.2) := by
  obtain ⟨kind, name, params, returns, body, range⟩ := f
  cases kind with
  | function =>
    have hk : r.kind? = some (.keyword .functionKw) := Cursor.kind?_of_spelled h
    simp [member, hk]
  | constructor =>
    have hk : r.kind? = some (.keyword .constructorKw) := Cursor.kind?_of_spelled h
    simp [member, hk]
  | fallback =>
    have hk : r.kind? = some (.keyword .fallbackKw) := Cursor.kind?_of_spelled h
    have hsees : r.sees (.keyword .fallbackKw) = true := Cursor.sees_of_spelled h rfl
    have hopen : r.cursor.kindAfter? 1 = some (.opens .paren) := Cursor.kindAfter?_of_spelled h
    simp [member, hk, hsees, hopen]
  | receive =>
    have hk : r.kind? = some (.keyword .receiveKw) := Cursor.kind?_of_spelled h
    have hsees : r.sees (.keyword .receiveKw) = true := Cursor.sees_of_spelled h rfl
    have hopen : r.cursor.kindAfter? 1 = some (.opens .paren) := Cursor.kindAfter?_of_spelled h
    simp [member, hk, hsees, hopen]

theorem Finds.map {α β : Type} {erase : α → α} {erase' : β → β} {x : α} {found : Option α × Reading}
    (h : Finds erase x r after found) (g : α → β) (hg : ∀ y, erase' (g y) = g (erase y)) :
    Finds erase' (g x) r after (found.1.map g, found.2) := by
  refine ⟨?_, h.spelled, h.faults⟩
  have hcomp : erase' ∘ g = g ∘ erase := funext hg
  rw [Option.map_map, hcomp, ← Option.map_map, h.value, Option.map_some, hg]

theorem member_of_spelled {m : Member} (hm : m.Canonical)
    (h : r.cursor.spelled = m.words ++ after) : Finds Member.erase m r after r.member := by
  cases m with
  | function f =>
    rw [member_of_function h]
    exact (function_of_spelled hm h).map Member.function fun _ => rfl
  | event e =>
    have hk : r.kind? = some (.keyword .eventKw) := Cursor.kind?_of_spelled h
    simp only [member, hk]
    exact (event_of_spelled hm h).map Member.event fun _ => rfl
  | «variable» v =>
    rw [member_of_variable hm h]
    exact (stateVariable_of_spelled hm h).map Member.variable fun _ => rfl
  | struct s =>
    have hk : r.kind? = some (.keyword .structKw) := Cursor.kind?_of_spelled h
    simp only [member, hk]
    exact (struct_of_spelled hm h).map Member.struct fun _ => rfl
  | enum e =>
    have hk : r.kind? = some (.keyword .enumKw) := Cursor.kind?_of_spelled h
    simp only [member, hk]
    exact (enum_of_spelled h).map Member.enum fun _ => rfl
  | usingFor u =>
    have hk : r.kind? = some (.keyword .usingKw) := Cursor.kind?_of_spelled h
    simp only [member, hk]
    exact (usingFor_of_spelled hm h).map Member.usingFor fun _ => rfl

theorem member_first_word {m : Member} (hm : m.Canonical) :
    ∃ w rest, m.words = w :: rest ∧ w.kind ≠ .closes .brace := by
  cases m with
  | function f =>
    obtain ⟨kind, name, params, returns, body, range⟩ := f
    cases kind <;> exact ⟨_, _, rfl, by simp [word]⟩
  | «variable» v => exact first_word_ne_close hm.1 _
  | event e => exact ⟨_, _, rfl, by simp [word]⟩
  | struct s => exact ⟨_, _, rfl, by simp [word]⟩
  | enum e => exact ⟨_, _, rfl, by simp [word]⟩
  | usingFor u => exact ⟨_, _, rfl, by simp [word]⟩

end Reading

end SolidityCompass
