import SolidityCompass.Proofs.PrintedMembers
import SolidityCompass.Proofs.TypeGrammar

/-!
# One type, wherever it is declared

Words that are read as the type of a parameter are that type in front of every plain name and its
semicolon: as a field of a struct, as a state variable of a contract, and as a local variable at
the start of a statement. The keyword `function` is the exception: in a contract it begins a
function, and in a body it begins no declaration.
-/

namespace SolidityCompass

open Spelling

/-- The words are the type of a parameter, all of them and nothing more: the parameter ends where
its type does. -/
def IsParameterType (words : List Spelling) (t : TypeName) : Prop :=
  ∃ (r : Reading) (v : Spelling) (after : List Spelling), Reading.EndsParameter v ∧
    r.cursor.spelled = words ++ v :: after ∧ r.parameter.1.map Parameter.type = some t ∧
    r.typeName.2.cursor.spelled = v :: after

/-- From `r` on, `read` finds `x` without an error, and then what it finds where `after` is
left. -/
def Reading.FindsFirst {α : Type} (read : Reading → List α × Reading) (x : α) (r : Reading)
    (after : List Spelling) : Prop :=
  ∃ s : Reading, s.cursor.spelled = after ∧ s.faults = r.faults ∧
    read r = (x :: (read s).1, (read s).2)

namespace Reading

variable {r s : Reading} {t : TypeName} {after : List Spelling}

/-- The type of a parameter is the type that is read first. -/
theorem typeName_of_parameter (h : r.parameter.1.map Parameter.type = some t) :
    r.cursor.typeName.1 = some t := by
  rcases hr : r.typeName with ⟨_ | type, s⟩
  · simp [parameter, hr] at h
  · have hfirst : r.cursor.typeName.1 = some type := congrArg Prod.fst hr
    simp only [parameter, hr] at h
    split at h <;> rwa [hfirst]

/-- A block begins with the part that is read at its first word. -/
theorem findsFirst_block {α : Type} {name : Block} {part : Reading → Option α × Reading}
    {progress : ∀ {r : Reading} {kind : Kind}, r.kind? = some kind → kind ≠ .closes .brace →
      r.Passes (part r).2} {x : α} {kind : Kind} (hk : r.kind? = some kind)
    (hclose : kind ≠ .closes .brace) (hpart : part r = (some x, s))
    (hspelled : s.cursor.spelled = after) (hfaults : s.faults = r.faults) :
    FindsFirst (block name part progress) x r after := by
  refine ⟨s, hspelled, hfaults, ?_⟩
  rw [block_eq hk, if_neg hclose, hpart]
  rfl

end Reading

namespace IsParameterType

variable {words after : List Spelling} {t : TypeName} {v first : Spelling} {n : String}

/-- A comma or a parenthesis goes on with no type, so the grammar derives the words in front of
every word that goes on with none. -/
theorem typeUpTo (h : IsParameterType words t) (hv : Cursor.EndsBase v) : TypeUpTo words t v := by
  obtain ⟨r, u, after, hu, hwords, hparameter, hrest⟩ := h
  have htype := Reading.typeName_of_parameter hparameter
  have hdot : u.kind ≠ .dot := by rcases hu with rfl | rfl <;> simp [comma, closing]
  obtain ⟨words', hwords', hgrammar⟩ := Cursor.exists_typeUpTo (Prod.ext htype rfl) hrest hdot
  obtain rfl : words' = words := List.append_cancel_right (hwords'.symm.trans hwords)
  exact hgrammar.of_endsBase hv

/-- The type is read in front of a plain name. -/
theorem typeName_eq {c : Cursor} (h : IsParameterType words t) (hn : IsPlain n)
    (hc : c.spelled = words ++ ident n :: after) :
    ∃ d, c.typeName = (some t, d) ∧ d.spelled = ident n :: after := by
  obtain ⟨d, hd, hrest⟩ :=
    Cursor.typeName_of_typeUpTo (h.typeUpTo (Cursor.endsBase_of_not_reserved hn.2)) hc
  exact ⟨d, hd.trans (Cursor.arraySuffixes_of_ne t hrest (by simp [ident])), hrest⟩

/-- The first word of a type is a name or one of two keywords. -/
theorem first_kind (h : IsParameterType (first :: words) t) :
    first.kind.isName = true ∨ first.kind = .keyword .mappingKw ∨
      first.kind = .keyword .functionKw := by
  have hcomma : Cursor.EndsBase comma := by simp [Cursor.EndsBase, comma]
  obtain ⟨_, _, heq, hfirst⟩ := (h.typeUpTo (v := comma) hcomma).exists_first
  rwa [(List.cons.inj heq).1]

theorem first_kind_of_ne (h : IsParameterType (first :: words) t)
    (hfunction : first.kind ≠ .keyword .functionKw) :
    first.kind.isName = true ∨ first.kind = .keyword .mappingKw :=
  h.first_kind.imp_right (Or.resolve_right · hfunction)

theorem first_kind_ne {kind : Kind} (h : IsParameterType (first :: words) t)
    (hkind : kind.isName = false ∧ kind ≠ .keyword .mappingKw ∧ kind ≠ .keyword .functionKw) :
    first.kind ≠ kind := by
  rintro rfl
  rcases h.first_kind with hname | hmapping | hfunction
  · exact absurd hname (by simp [hkind.1])
  · exact hkind.2.1 hmapping
  · exact hkind.2.2 hfunction

/-- `fallback` and `receive` begin a function before a parenthesis only, and in a type they are
not before one. -/
theorem kindAfter?_ne_paren {c : Cursor} (h : IsParameterType (first :: words) t) (hn : IsPlain n)
    (hc : c.spelled = first :: words ++ ident n :: after) (hfirst : first.kind.isName = true) :
    c.kindAfter? 1 ≠ some (.opens .paren) := by
  obtain ⟨second, rest, hrest⟩ : ∃ second rest, words ++ ident n :: after = second :: rest := by
    cases words <;> exact ⟨_, _, rfl⟩
  have hwords : first :: words ++ ident n :: after = first :: second :: rest := by
    rw [List.cons_append, hrest]
  have hsecond : second.kind ≠ .opens .paren :=
    (h.typeUpTo (Cursor.endsBase_of_not_reserved hn.2)).second_ne_paren (by simp [ident])
      hwords hfirst
  rw [Cursor.kindAfter?_of_spelled (hc.trans hwords)]
  exact fun hparen => hsecond (Option.some.inj hparen)

/-- In a struct the declaration is a field, whatever its type begins with. -/
theorem findsFirst_field {r : Reading} (h : IsParameterType (first :: words) t) (hn : IsPlain n)
    (hr : r.cursor.spelled = first :: words ++ ident n :: semicolon :: after) :
    ∃ f : Field, f.type = t ∧ f.name.text = n ∧
      Reading.FindsFirst (Reading.block .struct Reading.field Reading.passes_field) f r after := by
  obtain ⟨d, hd, hrest⟩ := h.typeName_eq hn hr
  obtain ⟨f, hf, htype, htext⟩ :=
    Reading.field_of_typeName (r := r) (by rw [Reading.typeName, hd]) hrest
  refine ⟨f, htype, htext, ?_⟩
  exact Reading.findsFirst_block (Cursor.kind?_of_spelled hr) (h.first_kind_ne (by decide)) hf
    (Cursor.spelled_advance (Cursor.spelled_advance hrest)) rfl

/-- In the body of a contract the declaration is a state variable. -/
theorem findsFirst_variable {r : Reading} (h : IsParameterType (first :: words) t) (hn : IsPlain n)
    (hfunction : first.kind ≠ .keyword .functionKw) (hword : ¬ first.IsWord ["error", "type"])
    (hr : r.cursor.spelled = first :: words ++ ident n :: semicolon :: after) :
    ∃ v : StateVariable, v.type = t ∧ v.name.text = n ∧
      Reading.FindsFirst (Reading.block .contractBody Reading.member Reading.passes_member)
        (.variable v) r after := by
  obtain ⟨d, hd, hrest⟩ := h.typeName_eq hn hr
  obtain ⟨v, hv, htype, htext⟩ :=
    Reading.stateVariable_of_typeName (r := r) (by rw [Reading.typeName, hd]) hrest
  have hmember := Reading.member_eq_stateVariable (r := r) hr (h.first_kind_of_ne hfunction) hword
    (fun hcontextual => h.kindAfter?_ne_paren hn hr (by simp [Kind.isName, hcontextual]))
  rw [hv] at hmember
  refine ⟨v, htype, htext, ?_⟩
  exact Reading.findsFirst_block (Cursor.kind?_of_spelled hr) (h.first_kind_ne (by decide)) hmember
    (Cursor.spelled_advance (Cursor.spelled_advance hrest)) rfl

/-- At the start of a statement the declaration is a local variable. -/
theorem scanBody_of_statement {c : Cursor} (h : IsParameterType (first :: words) t) (hn : IsPlain n)
    (hfunction : first.kind ≠ .keyword .functionKw)
    (hword : ¬ first.IsWord Cursor.statementWords)
    (hc : c.spelled = first :: words ++ ident n :: semicolon :: after) (inner : Nat) :
    ∃ (v : LocalVariable) (d : Cursor), v.type = t ∧ v.name.text = n ∧ d.spelled = after ∧
      Cursor.scanBody inner .fresh c = { Cursor.scanBody inner .fresh d with
        locals := v :: (Cursor.scanBody inner .fresh d).locals } := by
  obtain ⟨d, hd, hrest⟩ := h.typeName_eq hn hc
  have hstart := Cursor.startsDeclaration_of_first hc (h.first_kind_of_ne hfunction) hword
  have hparen : c.sees (.opens .paren) = false :=
    Cursor.not_sees_of_spelled hc (h.first_kind_ne (by decide))
  obtain ⟨v, hv, htype, htext⟩ := Cursor.declarations_of_typeName hstart hparen hd hrest
  have hsemi := Cursor.spelled_advance hrest
  refine ⟨v, d.advance.advance, htype, htext, Cursor.spelled_advance hsemi, ?_⟩
  exact Cursor.scanBody_of_declarations hv hsemi

end IsParameterType

open Reading in
/-- A type reads the same wherever it is declared. What is the type of a parameter is the type of
a field, of a state variable and of a local variable with any plain name behind it; the first word
must not be one that begins another member or another statement there. -/
theorem declares_parameter_type {first : Spelling} {words : List Spelling} {t : TypeName}
    {n : String} (h : IsParameterType (first :: words) t) (hn : IsPlain n) :
    (∀ (r : Reading) (after : List Spelling),
      r.cursor.spelled = first :: words ++ ident n :: semicolon :: after →
      ∃ f : Field, f.type = t ∧ f.name.text = n ∧
        FindsFirst (block .struct field passes_field) f r after) ∧
    (first.kind ≠ .keyword .functionKw → ¬ first.IsWord ["error", "type"] →
      ∀ (r : Reading) (after : List Spelling),
      r.cursor.spelled = first :: words ++ ident n :: semicolon :: after →
      ∃ v : StateVariable, v.type = t ∧ v.name.text = n ∧
        FindsFirst (block .contractBody member passes_member) (.variable v) r after) ∧
    (first.kind ≠ .keyword .functionKw → ¬ first.IsWord Cursor.statementWords →
      ∀ (inner : Nat) (c : Cursor) (after : List Spelling),
      c.spelled = first :: words ++ ident n :: semicolon :: after →
      ∃ (v : LocalVariable) (d : Cursor), v.type = t ∧ v.name.text = n ∧ d.spelled = after ∧
        Cursor.scanBody inner .fresh c = { Cursor.scanBody inner .fresh d with
          locals := v :: (Cursor.scanBody inner .fresh d).locals }) := by
  refine ⟨fun r after hr => h.findsFirst_field hn hr, fun hfunction hword r after hr => ?_,
    fun hfunction hword inner c after hc => ?_⟩
  · exact h.findsFirst_variable hn hfunction hword hr
  · exact h.scanBody_of_statement hn hfunction hword hc inner

-- The word behind `address` goes on with it, and the brackets with both.
open Reading in
theorem declares_parameter_type_payables :
    IsParameterType [ident "address", ident "payable", opening .square, closing .square]
        (.array (.named "address payable") none) ∧
      IsPlain "payees" ∧
      (∃ f : Field, f.type = .array (.named "address payable") none ∧ f.name.text = "payees" ∧
        FindsFirst (block .struct field passes_field) f
          (start "address payable[] payees; \x7d") [closing .brace]) ∧
      (∃ v : StateVariable, v.type = .array (.named "address payable") none ∧
        v.name.text = "payees" ∧
        FindsFirst (block .contractBody member passes_member) (.variable v)
          (start "address payable[] payees; \x7d") [closing .brace]) ∧
      ∃ (v : LocalVariable) (d : Cursor), v.type = .array (.named "address payable") none ∧
        v.name.text = "payees" ∧ d.spelled = [closing .brace] ∧
        Cursor.scanBody 0 .fresh (start "address payable[] payees; \x7d").cursor =
          { Cursor.scanBody 0 .fresh d with
            locals := v :: (Cursor.scanBody 0 .fresh d).locals } := by
  have h : IsParameterType [ident "address", ident "payable", opening .square, closing .square]
      (.array (.named "address payable") none) :=
    ⟨start "address payable[],", comma, [], Or.inl rfl, by decide +kernel, by decide +kernel,
      by decide +kernel⟩
  have hn : IsPlain "payees" := by decide +kernel
  have hr : (start "address payable[] payees; \x7d").cursor.spelled =
      [ident "address", ident "payable", opening .square, closing .square] ++
        ident "payees" :: semicolon :: [closing .brace] := by decide +kernel
  obtain ⟨hstruct, hcontract, hstatement⟩ := declares_parameter_type h hn
  refine ⟨h, hn, hstruct _ _ hr, hcontract ?_ ?_ _ _ hr, hstatement ?_ ?_ 0 _ _ hr⟩
  · decide
  · exact fun hword => absurd hword.2 (by decide)
  · decide
  · exact fun hword => absurd hword.2 (by decide)

open Reading in
/-- The type of a parameter may begin with `function`, which declares no variable in a contract
and none in a body. -/
theorem function_type_declares_no_variable :
    IsParameterType
        [word .functionKw, opening .paren, ident "uint", closing .paren, ident "external"]
        .function ∧
      IsPlain "f" ∧ ¬ (word .functionKw).IsWord ("error" :: "type" :: Cursor.statementWords) ∧
      (start "function (uint) external f; \x7d").cursor.spelled =
        [word .functionKw, opening .paren, ident "uint", closing .paren, ident "external"] ++
          ident "f" :: semicolon :: [closing .brace] ∧
      (¬ ∃ v : StateVariable,
        FindsFirst (block .contractBody member passes_member) (.variable v)
          (start "function (uint) external f; \x7d") [closing .brace]) ∧
      (Cursor.scanBody 0 .fresh (start "function (uint) external f; \x7d").cursor).locals = [] := by
  refine ⟨?_, by decide +kernel, fun hword => absurd hword.1 (by decide), by decide +kernel, ?_,
    by decide +kernel⟩
  · exact ⟨start "function (uint) external,", comma, [], Or.inl rfl, by decide +kernel,
      by decide +kernel, by decide +kernel⟩
  · rintro ⟨v, s, -, -, hread⟩
    have hmembers : (block .contractBody member passes_member
        (start "function (uint) external f; \x7d")).1 =
          [.function ⟨.fallback, ⟨"fallback", ⟨0, 8⟩⟩, [⟨.named "uint", none, none, ⟨10, 14⟩⟩], [],
            none, ⟨0, 27⟩⟩] := by decide +kernel
    rw [hread] at hmembers
    cases (List.cons.inj hmembers).1

end SolidityCompass
