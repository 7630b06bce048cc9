import SolidityCompass.Outline.TypeName

/-!
# The parts of a type

`Cursor.typeName` reads a mapping, a function type or a named type, and then array brackets. The
equations below say so without the proofs that the reader carries along, and a type that was read is
taken apart into its parts.
-/

namespace SolidityCompass

namespace Cursor

def mappingType (c : Cursor) : Option TypeName × Cursor :=
  match c.advance.eat? (.opens .paren) with
  | none => (none, c.advance)
  | some c₁ =>
    match c₁.typeName with
    | (none, d) => (none, d)
    | (some key, d) =>
      match (d.skipNameBefore .fatArrow).eat? .fatArrow with
      | none => (none, d.skipNameBefore .fatArrow)
      | some c₂ =>
        match c₂.typeName with
        | (none, e) => (none, e)
        | (some value, e) =>
          match (e.skipNameBefore (.closes .paren)).eat? (.closes .paren) with
          | none => (none, e.skipNameBefore (.closes .paren))
          | some f => (some (.mapping key value), f)

def withSuffixes (found : Option TypeName × Cursor) : Option TypeName × Cursor :=
  match found.1 with
  | none => (none, found.2)
  | some element => arraySuffixes element found.2

theorem arraySuffixes_eq (element : TypeName) (c : Cursor) :
    arraySuffixes element c = if c.sees (.opens .square) then
      match (c.advance.skip c.advance.arrayLength.length).eat? (.closes .square) with
      | some d => arraySuffixes (.array element (lengthText c.advance.arrayLength)) d
      | none => (none, c.advance.skip c.advance.arrayLength.length)
      else (some element, c) := by
  rw [arraySuffixes]
  dsimp only
  split
  next => split <;> simp_all
  next => rfl

theorem typeName_eq_of_typeNameAfter {c d : Cursor} {type : Option TypeName} {hd : c.Reaches d}
    (h : c.typeNameAfter = (type, ⟨d, hd⟩)) : c.typeName = (type, d) := by
  simp [typeName, h]

theorem typeName_of_mapping {c : Cursor} (hk : c.kind? = some (.keyword .mappingKw)) :
    c.typeName = withSuffixes c.mappingType := by
  rw [typeName, typeNameAfter, mappingType]
  simp only [hk]
  split
  next h => simp only [h, withSuffixes]
  next c₁ h =>
    rcases h₁ : c₁.typeNameAfter with ⟨_ | key, d, hd⟩
    · simp only [h, typeName_eq_of_typeNameAfter h₁, withSuffixes]
    · simp only [h, typeName_eq_of_typeNameAfter h₁]
      split
      next h₂ => simp only [h₂, withSuffixes]
      next c₂ h₂ =>
        rcases h₃ : c₂.typeNameAfter with ⟨_ | value, e, he⟩
        · simp only [h₂, typeName_eq_of_typeNameAfter h₃, withSuffixes]
        · simp only [h₂, typeName_eq_of_typeNameAfter h₃]
          split
          next h₄ => simp only [h₄, withSuffixes]
          next f h₄ => simp only [h₄, withSuffixes]

theorem typeName_of_function {c : Cursor} (hk : c.kind? = some (.keyword .functionKw)) :
    c.typeName = withSuffixes c.functionType := by
  rw [typeName, typeNameAfter]
  simp only [hk]
  split
  next h => simp only [withSuffixes, h]
  next type h => simp only [withSuffixes, h]

theorem typeName_of_named {c d : Cursor} {type : TypeName}
    (hm : c.kind? ≠ some (.keyword .mappingKw)) (hf : c.kind? ≠ some (.keyword .functionKw))
    (h : c.namedType? = some (type, d)) : c.typeName = arraySuffixes type d := by
  rw [typeName, typeNameAfter]
  split
  next hk => exact absurd hk hm
  next hk => exact absurd hk hf
  next =>
    split
    next hnone => simp [h] at hnone
    next type' d' hsome =>
      obtain ⟨rfl, rfl⟩ : type = type' ∧ d = d' := by simpa [h] using hsome
      rfl

theorem typeName_of_none {c : Cursor} (hm : c.kind? ≠ some (.keyword .mappingKw))
    (hf : c.kind? ≠ some (.keyword .functionKw)) (h : c.namedType? = none) :
    c.typeName = (none, c) := by
  rw [typeName, typeNameAfter]
  split
  next hk => exact absurd hk hm
  next hk => exact absurd hk hf
  next =>
    split
    next => rfl
    next type d hsome => simp [h] at hsome

theorem withSuffixes_eq_some {found : Option TypeName × Cursor} {d : Cursor} {type : TypeName}
    (h : withSuffixes found = (some type, d)) :
    ∃ base e, found = (some base, e) ∧ arraySuffixes base e = (some type, d) := by
  obtain ⟨_ | base, e⟩ := found
  · cases h
  · exact ⟨base, e, rfl, h⟩

/-- A type that was read is a mapping, a function type or a named type, with array brackets. -/
theorem typeName_cases {c d : Cursor} {type : TypeName} (h : c.typeName = (some type, d)) :
    ∃ base e, arraySuffixes base e = (some type, d) ∧
      (c.kind? = some (.keyword .mappingKw) ∧ c.mappingType = (some base, e) ∨
        c.kind? = some (.keyword .functionKw) ∧ c.functionType = (some base, e) ∨
        c.namedType? = some (base, e)) := by
  by_cases hm : c.kind? = some (.keyword .mappingKw)
  · rw [typeName_of_mapping hm] at h
    obtain ⟨base, e, hbase, hsuffixes⟩ := withSuffixes_eq_some h
    exact ⟨base, e, hsuffixes, Or.inl ⟨hm, hbase⟩⟩
  by_cases hf : c.kind? = some (.keyword .functionKw)
  · rw [typeName_of_function hf] at h
    obtain ⟨base, e, hbase, hsuffixes⟩ := withSuffixes_eq_some h
    exact ⟨base, e, hsuffixes, Or.inr (Or.inl ⟨hf, hbase⟩)⟩
  cases hnamed : c.namedType? with
  | none =>
    rw [typeName_of_none hm hf hnamed] at h
    cases h
  | some found =>
    rw [typeName_of_named hm hf hnamed] at h
    exact ⟨found.1, found.2, h, Or.inr (Or.inr rfl)⟩

/-- The parts of a mapping that was read, and where they stand. -/
theorem mappingType_cases {c d : Cursor} {type : TypeName} (h : c.mappingType = (some type, d)) :
    ∃ c₁ key d₁ c₂ value d₂, type = .mapping key value ∧ c.Passes c₁ ∧ c.Passes c₂ ∧
      c.advance.eat? (.opens .paren) = some c₁ ∧ c₁.typeName = (some key, d₁) ∧
      (d₁.skipNameBefore .fatArrow).eat? .fatArrow = some c₂ ∧ c₂.typeName = (some value, d₂) ∧
      (d₂.skipNameBefore (.closes .paren)).eat? (.closes .paren) = some d := by
  unfold mappingType at h
  split at h
  next => cases h
  next c₁ hopen =>
    have hpass₁ := c.reaches_advance.trans_passes (passes_of_eat? hopen)
    split at h
    next => cases h
    next key d₁ hkey =>
      split at h
      next => cases h
      next c₂ harrow =>
        have hpass₂ := hpass₁.trans_reaches ((passes_of_typeName hkey).reaches.trans
          ((reaches_skipNameBefore _ _).trans (passes_of_eat? harrow).reaches))
        split at h
        next => cases h
        next value d₂ hvalue =>
          split at h
          next => cases h
          next hclose =>
            cases h
            exact ⟨c₁, key, d₁, c₂, value, d₂, rfl, hpass₁, hpass₂, hopen, hkey, harrow, hvalue,
              hclose⟩

end Cursor

end SolidityCompass
