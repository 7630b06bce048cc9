import SolidityCompass.Outline.Function

/-!
# Structs, enums, variables and directives

Readers for the remaining members of a contract. Each one starts at its first token; a
declaration that cannot be read is reported and its item skipped.
-/

namespace SolidityCompass

namespace Reading

def block {α : Type} (name : Block) (part : Reading → Option α × Reading)
    (progress : ∀ {r : Reading} {kind : Kind}, r.kind? = some kind → kind ≠ .closes .brace →
      r.Passes (part r).2) (r : Reading) : List α × Reading :=
  match h : r.kind? with
  | none => ([], r.report (.unterminated name))
  | some kind =>
    if hk : kind = .closes .brace then ([], r.advance)
    else
      have : (part r).2.cursor.rest.length < r.cursor.rest.length := (progress h hk).length_lt
      let tail := block name part progress (part r).2
      ((part r).1.toList ++ tail.1, tail.2)
termination_by r.cursor.rest.length

theorem reaches_block {α : Type} (name : Block) (part : Reading → Option α × Reading)
    (progress : ∀ {r : Reading} {kind : Kind}, r.kind? = some kind → kind ≠ .closes .brace →
      r.Passes (part r).2) (r : Reading) :
    r.Reaches (r.block name part progress).2 := by
  fun_induction block name part progress r with
  | case1 r => exact .refl r.cursor
  | case2 r => exact r.cursor.reaches_advance
  | case3 r _ h hk _ _ ih => exact (progress h hk).reaches.trans ih

def field (r : Reading) : Option Field × Reading :=
  match r.typeName with
  | (none, s) => (none, s.recover .expectedField)
  | (some type, s) =>
    match s.expectName .field with
    | (none, s) => (none, s.skipItem)
    | (some name, s) => (some ⟨type, name⟩, s.expect .semicolon)

/-- A reader that skips the item where it finds no type consumes a token before anything but a
closing brace. -/
theorem passes_skipItem_typeName {r : Reading} {kind : Kind} (h : r.kind? = some kind)
    (hk : kind ≠ .closes .brace) : r.cursor.Passes r.cursor.typeName.2.skipItem := by
  rcases r.cursor.passes_typeName_or_eq with hp | he
  · exact hp.trans_reaches (Cursor.reaches_skipItem _)
  · rw [he]
    exact Cursor.passes_skipItem h hk

theorem passes_of_typeName {r s : Reading} {type : TypeName} (h : r.typeName = (some type, s)) :
    r.Passes s := by
  simp only [typeName, Prod.mk.injEq] at h
  rw [← h.2]
  exact Cursor.passes_of_typeName (Prod.ext h.1 rfl)

theorem cursor_of_typeName {r s : Reading} {type : Option TypeName} (h : r.typeName = (type, s)) :
    s.cursor = r.cursor.typeName.2 := by
  simp only [typeName, Prod.mk.injEq] at h
  rw [← h.2, cursor_goTo]

theorem passes_field {r : Reading} {kind : Kind} (h : r.kind? = some kind)
    (hk : kind ≠ .closes .brace) : r.Passes r.field.2 := by
  unfold field
  split
  next s hs =>
    have hp := passes_skipItem_typeName h hk
    rwa [← cursor_of_typeName hs] at hp
  next type s hs =>
    have hp := passes_of_typeName hs
    split
    next s' h' =>
      exact hp.trans_reaches ((reaches_of_expectName h').trans s'.cursor.reaches_skipItem)
    next name s' h' =>
      exact hp.trans_reaches ((reaches_of_expectName h').trans (reaches_expect _ _))

def blockName (r : Reading) (role : NameRole) : Option Name × Reading :=
  match r.expectName role with
  | (none, s) => (none, s.skipItem)
  | (some name, s) =>
    if s.sees (.opens .brace) then (some name, s.advance)
    else (none, s.recover (.expectedToken (.opens .brace)))

theorem reaches_blockName (r : Reading) (role : NameRole) : r.Reaches (r.blockName role).2 := by
  unfold blockName
  split
  next s h => exact (reaches_of_expectName h).trans s.cursor.reaches_skipItem
  next name s h =>
    have hs := reaches_of_expectName h
    split
    · exact hs.trans s.cursor.reaches_advance
    · exact hs.trans s.cursor.reaches_skipItem

theorem reaches_of_blockName {r s : Reading} {role : NameRole} {name : Option Name}
    (h : r.blockName role = (name, s)) : r.Reaches s := by
  simpa [h] using r.reaches_blockName role

def struct (r : Reading) : Option Struct × Reading :=
  match r.advance.blockName .struct with
  | (none, s) => (none, s)
  | (some name, s) =>
    let fields := s.block .struct field passes_field
    (some ⟨name, fields.1, fields.2.rangeFrom r.here.start⟩, fields.2)

theorem reaches_struct (r : Reading) : r.advance.Reaches r.struct.2 := by
  unfold struct
  split
  next s h => exact reaches_of_blockName h
  next name s h => exact (reaches_of_blockName h).trans (reaches_block _ _ _ _)

/-- Reads a member of an enum; another token in its place is reported and consumed. -/
def enumMember (r : Reading) : Option Name × Reading :=
  match r.cursor.name? with
  | some (name, c) => (some name, r.goTo c)
  | none => (none, (r.report .expectedEnumMember).advance)

theorem passes_enumMember {r : Reading} {kind : Kind} (h : r.kind? = some kind) :
    r.Passes r.enumMember.2 := by
  unfold enumMember
  split
  next name c hn => exact Cursor.passes_of_name? hn
  next => exact Cursor.passes_advance_of_kind? h

def enumMembers (r : Reading) : List Name × Reading :=
  match h : r.kind? with
  | none => ([], r.report (.unterminated .enum))
  | some kind =>
    if kind = .closes .brace then ([], r.advance)
    else if r.enumMember.2.sees .comma then
      have : r.enumMember.2.advance.cursor.rest.length < r.cursor.rest.length :=
        ((passes_enumMember h).trans_reaches (Cursor.reaches_advance _)).length_lt
      let tail := enumMembers r.enumMember.2.advance
      (r.enumMember.1.toList ++ tail.1, tail.2)
    else (r.enumMember.1.toList, r.enumMember.2.expect (.closes .brace))
termination_by r.cursor.rest.length
decreasing_by assumption

theorem reaches_enumMembers (r : Reading) : r.Reaches r.enumMembers.2 := by
  fun_induction enumMembers r with
  | case1 r => exact .refl r.cursor
  | case2 r => exact r.cursor.reaches_advance
  | case3 r _ h _ _ _ _ ih =>
    exact (passes_enumMember h).reaches.trans ((Cursor.reaches_advance _).trans ih)
  | case4 r _ h => exact (passes_enumMember h).reaches.trans (reaches_expect _ _)

def enum (r : Reading) : Option Enum × Reading :=
  match r.advance.blockName .enum with
  | (none, s) => (none, s)
  | (some name, s) =>
    let members := s.enumMembers
    (some ⟨name, members.1, members.2.rangeFrom r.here.start⟩, members.2)

theorem reaches_enum (r : Reading) : r.advance.Reaches r.enum.2 := by
  unfold enum
  split
  next s h => exact reaches_of_blockName h
  next name s h => exact (reaches_of_blockName h).trans (reaches_enumMembers _)

def usingEnd (r : Reading) : Reading :=
  (r.goTo (r.cursor.skipWord "global")).expect .semicolon

theorem reaches_usingEnd (r : Reading) : r.Reaches r.usingEnd :=
  (r.cursor.reaches_skipWord "global").trans (reaches_expect _ _)

/-- Reads a `using` directive at its keyword. One that binds functions in braces names no library
and is skipped. -/
def usingFor (r : Reading) : Option Using × Reading :=
  if r.advance.sees (.opens .brace) then
    (none, (r.advance.goTo r.advance.cursor.skipGroup.2).skipItem)
  else
    match r.advance.cursor.path? with
    | none => (none, r.advance.recover .expectedLibrary)
    | some (library, c) =>
      match c.eat? (.keyword .forKw) with
      | none => (none, (r.goTo c).recover .expectedFor)
      | some d =>
        if d.sees .star then
          let s := (r.goTo d.advance).usingEnd
          (some ⟨library, none, s.rangeFrom r.here.start⟩, s)
        else
          match (r.goTo d).typeName with
          | (none, s) => (none, s.recover .expectedTarget)
          | (some target, s) =>
            (some ⟨library, some target, s.usingEnd.rangeFrom r.here.start⟩, s.usingEnd)

theorem reaches_usingFor (r : Reading) : r.advance.Reaches r.usingFor.2 := by
  unfold usingFor
  split
  next => exact (Cursor.reaches_skipGroup _).trans (Cursor.reaches_skipItem _)
  next =>
    split
    next => exact Cursor.reaches_skipItem _
    next library c hc =>
      have hr := (Cursor.passes_of_path? hc).reaches
      split
      next => exact hr.trans c.reaches_skipItem
      next d hd =>
        replace hr := hr.trans (Cursor.passes_of_eat? hd).reaches
        split
        next => exact hr.trans (d.reaches_advance.trans (reaches_usingEnd _))
        next =>
          split
          next s hs => exact hr.trans ((reaches_of_typeName hs).trans s.cursor.reaches_skipItem)
          next target s hs => exact hr.trans ((reaches_of_typeName hs).trans (reaches_usingEnd _))

end Reading

namespace Cursor

def endsVariableName (kind : Kind) : Bool :=
  kind = .semicolon || kind = .eq

/-- Reads the name of a state variable: the last name before `;` or `=`. The words before it, such
as visibility and `override(A, B)`, are passed over. -/
def variableName (c : Cursor) : Option Name × Cursor :=
  match c.name? with
  | some (name, d) =>
    if d.seesAny endsVariableName then (some name, d)
    else if h : c.sees .ident then
      if hp : c.advance.sees (.opens .paren) then
        have : c.advance.skipGroup.2.rest.length < c.rest.length :=
          ((passes_advance_of_sees h).trans_reaches (passes_skipGroup hp).reaches).length_lt
        variableName c.advance.skipGroup.2
      else
        have : c.advance.rest.length < c.rest.length := (passes_advance_of_sees h).length_lt
        variableName c.advance
    else (none, c)
  | none => (none, c)
termination_by c.rest.length
decreasing_by all_goals assumption

theorem reaches_variableName (c : Cursor) : c.Reaches c.variableName.2 := by
  fun_induction variableName c with
  | case1 c name d h _ => exact (passes_of_name? h).reaches
  | case2 c _ _ _ _ _ _ _ ih => exact c.reaches_advance.trans ((reaches_skipGroup _).trans ih)
  | case3 c _ _ _ _ _ _ _ ih => exact c.reaches_advance.trans ih
  | case4 c => exact .refl c
  | case5 c => exact .refl c

end Cursor

namespace Reading

def stateVariable (r : Reading) : Option StateVariable × Reading :=
  match r.typeName with
  | (none, s) => (none, s.recover .expectedMember)
  | (some type, s) =>
    match s.cursor.variableName with
    | (none, c) => (none, (s.goTo c).recover .expectedVariableName)
    | (some name, c) =>
      let s := (s.goTo c).skipItem
      (some ⟨type, name, s.rangeFrom r.here.start⟩, s)

theorem passes_stateVariable {r : Reading} {kind : Kind} (h : r.kind? = some kind)
    (hk : kind ≠ .closes .brace) : r.Passes r.stateVariable.2 := by
  unfold stateVariable
  split
  next s hs =>
    have hp := passes_skipItem_typeName h hk
    rwa [← cursor_of_typeName hs] at hp
  next type s hs =>
    have hv := s.cursor.reaches_variableName
    split
    next c hc =>
      rw [hc] at hv
      exact (passes_of_typeName hs).trans_reaches (hv.trans c.reaches_skipItem)
    next name c hc =>
      rw [hc] at hv
      exact (passes_of_typeName hs).trans_reaches (hv.trans c.reaches_skipItem)

end Reading

end SolidityCompass
