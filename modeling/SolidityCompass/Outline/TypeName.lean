import SolidityCompass.Outline.Cursor

/-!
# Reading types

`Cursor.typeName` reads the longest type at a cursor. It records no errors: when there is no
type it answers with nothing and with the place where reading stopped, and its callers decide
what that means. Types nest through mappings, so the reader carries a proof that it never
moves backwards, by which the nested reading ends.
-/

namespace SolidityCompass

namespace Cursor

def inArrayLength : Kind → Bool
  | .closes .square | .semicolon | .opens .brace | .closes .brace => false
  | _ => true

def arrayLength (c : Cursor) : List Token :=
  c.rest.takeWhile (fun t => inArrayLength t.kind)

/-- The text of an array length, blanks dropped; nothing for a dynamic array. -/
def lengthText (tokens : List Token) : Option String :=
  if tokens.isEmpty then none else some (String.join (tokens.map Token.text))

def arraySuffixes (element : TypeName) (c : Cursor) : Option TypeName × Cursor :=
  if hOpen : c.sees (.opens .square) then
    let length := c.advance.arrayLength
    match hClose : (c.advance.skip length.length).eat? (.closes .square) with
    | some d =>
      have : d.rest.length < c.rest.length :=
        ((passes_advance_of_sees hOpen).trans_reaches
          ((reaches_skip _ _).trans (passes_of_eat? hClose).reaches)).length_lt
      arraySuffixes (.array element (lengthText length)) d
    | none => (none, c.advance.skip length.length)
  else (some element, c)
termination_by c.rest.length

theorem reaches_arraySuffixes (element : TypeName) (c : Cursor) :
    c.Reaches (arraySuffixes element c).2 := by
  fun_induction arraySuffixes element c with
  | case1 element c _ length d hClose _ ih =>
    exact c.reaches_advance.trans
      ((reaches_skip _ _).trans ((passes_of_eat? hClose).reaches.trans ih))
  | case2 element c _ length _ => exact c.reaches_advance.trans (reaches_skip _ _)
  | case3 element c _ => exact .refl c

/-- Reads an elementary or declared type; `address payable` is one type. -/
def namedType? (c : Cursor) : Option (TypeName × Cursor) :=
  c.path?.map fun (path, d) =>
    if path = "address" && d.seesWord "payable" then (.named "address payable", d.advance)
    else (.named path, d)

theorem passes_of_namedType? {c d : Cursor} {type : TypeName}
    (h : c.namedType? = some (type, d)) : c.Passes d := by
  obtain ⟨⟨path, e⟩, he, hd⟩ := Option.map_eq_some_iff.mp h
  dsimp only at hd
  split at hd <;> cases hd
  · exact (passes_of_path? he).trans_reaches e.reaches_advance
  · exact passes_of_path? he

def functionType (c : Cursor) : Option TypeName × Cursor :=
  match c.advance.skipGroup with
  | (false, d) => (none, d)
  | (true, d) =>
    let d := d.skipWords ["external", "internal", "pure", "view", "payable"]
    match d.eat? (.keyword .returnsKw) with
    | none => (some .function, d)
    | some e => (if e.skipGroup.1 then some .function else none, e.skipGroup.2)

theorem reaches_functionType (c : Cursor) : c.advance.Reaches c.functionType.2 := by
  have hg := c.advance.reaches_skipGroup
  unfold functionType
  split
  next d h => simpa [h] using hg
  next d h =>
    rw [h] at hg
    replace hg := hg.trans (d.reaches_skipWords ["external", "internal", "pure", "view", "payable"])
    dsimp only
    split
    · exact hg
    next e he => exact hg.trans ((passes_of_eat? he).reaches.trans e.reaches_skipGroup)

abbrev After (c : Cursor) := { d : Cursor // c.Reaches d }

/-- Reads a type, with a proof that the cursor does not move backwards. -/
def typeNameAfter (c : Cursor) : Option TypeName × c.After :=
  match c.kind? with
  | some (.keyword .mappingKw) =>
    match hOpen : c.advance.eat? (.opens .paren) with
    | none => (none, ⟨c.advance, c.reaches_advance⟩)
    | some c₁ =>
      have h₁ : c.Passes c₁ := c.reaches_advance.trans_passes (passes_of_eat? hOpen)
      match typeNameAfter c₁ with
      | (none, ⟨d, hd⟩) => (none, ⟨d, h₁.reaches.trans hd⟩)
      | (some key, ⟨d, hd⟩) =>
        have hd' : c.Passes (d.skipNameBefore .fatArrow) :=
          h₁.trans_reaches (hd.trans (d.reaches_skipNameBefore _))
        match hArrow : (d.skipNameBefore .fatArrow).eat? .fatArrow with
        | none => (none, ⟨d.skipNameBefore .fatArrow, hd'.reaches⟩)
        | some c₂ =>
          have h₂ : c.Passes c₂ := hd'.trans_reaches (passes_of_eat? hArrow).reaches
          match typeNameAfter c₂ with
          | (none, ⟨e, he⟩) => (none, ⟨e, h₂.reaches.trans he⟩)
          | (some value, ⟨e, he⟩) =>
            have he' : c.Reaches (e.skipNameBefore (.closes .paren)) :=
              h₂.reaches.trans (he.trans (e.reaches_skipNameBefore _))
            match hClose : (e.skipNameBefore (.closes .paren)).eat? (.closes .paren) with
            | none => (none, ⟨e.skipNameBefore (.closes .paren), he'⟩)
            | some f =>
              have hf : c.Reaches f := he'.trans (passes_of_eat? hClose).reaches
              ((arraySuffixes (.mapping key value) f).1,
                ⟨(arraySuffixes (.mapping key value) f).2, hf.trans (reaches_arraySuffixes _ f)⟩)
  | some (.keyword .functionKw) =>
    have hd : c.Reaches c.functionType.2 := c.reaches_advance.trans c.reaches_functionType
    match c.functionType.1 with
    | none => (none, ⟨c.functionType.2, hd⟩)
    | some type =>
      ((arraySuffixes type c.functionType.2).1,
        ⟨(arraySuffixes type c.functionType.2).2, hd.trans (reaches_arraySuffixes _ _)⟩)
  | _ =>
    match hNamed : c.namedType? with
    | none => (none, ⟨c, .refl c⟩)
    | some (type, d) =>
      ((arraySuffixes type d).1,
        ⟨(arraySuffixes type d).2,
          (passes_of_namedType? hNamed).reaches.trans (reaches_arraySuffixes _ d)⟩)
termination_by c.rest.length
decreasing_by
  · exact h₁.length_lt
  · exact h₂.length_lt

def typeName (c : Cursor) : Option TypeName × Cursor :=
  (c.typeNameAfter.1, c.typeNameAfter.2.1)

theorem reaches_typeName (c : Cursor) : c.Reaches c.typeName.2 :=
  c.typeNameAfter.2.2

/-- Reading a type consumes a token, unless there is no type and the cursor stays. -/
theorem passes_typeName_or_eq (c : Cursor) : c.Passes c.typeName.2 ∨ c.typeName = (none, c) := by
  unfold typeName
  rw [typeNameAfter]
  split
  next hk =>
    left
    have ha := passes_advance_of_kind? hk
    split
    next => exact ha
    next c₁ hOpen =>
      have h₁ := ha.trans_reaches (passes_of_eat? hOpen).reaches
      split
      next d hd _ => exact h₁.trans_reaches hd
      next key d hd _ =>
        have hd' := h₁.trans_reaches (hd.trans (d.reaches_skipNameBefore .fatArrow))
        dsimp only
        split
        next => exact hd'
        next c₂ hArrow =>
          have h₂ := hd'.trans_reaches (passes_of_eat? hArrow).reaches
          split
          next e he _ => exact h₂.trans_reaches he
          next value e he _ =>
            have he' := h₂.trans_reaches (he.trans (e.reaches_skipNameBefore (.closes .paren)))
            split
            next => exact he'
            next f hClose =>
              exact he'.trans_reaches
                ((passes_of_eat? hClose).reaches.trans (reaches_arraySuffixes _ f))
  next hk =>
    left
    have hd := (passes_advance_of_kind? hk).trans_reaches c.reaches_functionType
    dsimp only
    split
    next => exact hd
    next => exact hd.trans_reaches (reaches_arraySuffixes _ _)
  next =>
    split
    next => exact Or.inr rfl
    next type d hNamed =>
      exact Or.inl ((passes_of_namedType? hNamed).trans_reaches (reaches_arraySuffixes _ d))

theorem passes_of_typeName {c d : Cursor} {type : TypeName} (h : c.typeName = (some type, d)) :
    c.Passes d := by
  rcases c.passes_typeName_or_eq with hp | he
  · simpa [h] using hp
  · simp [h] at he

end Cursor

end SolidityCompass
