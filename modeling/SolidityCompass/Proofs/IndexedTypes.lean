import SolidityCompass.Symbol.Viewpoint

/-!
# Indexes on declared types

An index takes one layer off the type that was declared: a mapping leaves its value type, and an
array, with however many pairs of brackets, what stands before the first of them. A type reference
keeps of a declared type only whether there are brackets at all, and that is enough to follow it
through any number of indexes.
-/

namespace SolidityCompass

namespace TypeName

def isArray : TypeName → Bool
  | .array _ _ => true
  | _ => false

def isMapping : TypeName → Bool
  | .mapping _ _ => true
  | _ => false

def bracketless : TypeName → TypeName
  | .array element _ => element.bracketless
  | type => type

/-- The type of an element; directly nested arrays are one array. -/
def indexed? : TypeName → Option TypeName
  | .mapping _ value => some value
  | .array element _ => some element.bracketless
  | .named _ | .function => none

def afterIndexes? (type : TypeName) : Nat → Option TypeName
  | 0 => some type
  | n + 1 => (type.afterIndexes? n).bind indexed?

/-- How many mappings and arrays lie around the innermost type, along the values of mappings. -/
def layers : TypeName → Nat
  | .mapping _ value => value.layers + 1
  | .array element _ => if element.isArray then element.layers else element.layers + 1
  | .named _ | .function => 0

variable {t s : TypeName}

theorem indexed?_eq_none_iff : t.indexed? = none ↔ t.isArray = false ∧ t.isMapping = false := by
  cases t <;> simp [indexed?, isArray, isMapping]

theorem layers_array (t : TypeName) (length : Option String) :
    (array t length).layers = t.bracketless.layers + 1 := by
  induction t generalizing length with
  | array element inner ih =>
    have hinner : (array (array element inner) length).layers = (array element inner).layers := rfl
    rw [hinner, ih]
    rfl
  | named path => rfl
  | mapping key value => rfl
  | function => rfl

theorem layers_of_indexed? (h : t.indexed? = some s) : s.layers + 1 = t.layers := by
  cases t with
  | mapping key value =>
    cases h
    rfl
  | array element length =>
    cases h
    exact (layers_array element length).symm
  | named path => cases h
  | function => cases h

/-- Each index takes away one layer. -/
theorem layers_of_afterIndexes? {k : Nat} (h : t.afterIndexes? k = some s) :
    s.layers + k = t.layers := by
  induction k generalizing s with
  | zero =>
    cases h
    rfl
  | succ k ih =>
    obtain ⟨u, hu, hs⟩ := Option.bind_eq_some_iff.mp h
    have hlast := layers_of_indexed? hs
    have hfirst := ih hu
    omega

/-- There is no type after some indexes if one of them meets a type that has no elements. -/
theorem afterIndexes?_eq_none_iff {k : Nat} :
    t.afterIndexes? k = none ↔
      ∃ j < k, ∃ s, t.afterIndexes? j = some s ∧ s.isArray = false ∧ s.isMapping = false := by
  induction k with
  | zero => simp [afterIndexes?]
  | succ k ih =>
    simp only [← indexed?_eq_none_iff] at ih ⊢
    rw [afterIndexes?, Option.bind_eq_none_iff]
    constructor
    · intro h
      cases hk : t.afterIndexes? k with
      | none =>
        obtain ⟨j, hj, hmet⟩ := ih.mp hk
        exact ⟨j, Nat.lt_succ_of_lt hj, hmet⟩
      | some s => exact ⟨k, Nat.lt_succ_self k, s, hk, h s hk⟩
    · rintro ⟨j, hj, s, hs, hmet⟩ u hu
      rcases Nat.lt_succ_iff_lt_or_eq.mp hj with hlt | rfl
      · rw [ih.mpr ⟨j, hlt, s, hs, hmet⟩] at hu
        cases hu
      · rw [hs] at hu
        cases hu
        exact hmet

end TypeName

namespace TypeRef

theorem withArray_withArray (type : TypeRef) (first last : Bool) :
    (type.withArray first).withArray last = type.withArray last := by
  cases type <;> rfl

theorem indexed?_withArray_true (type : TypeRef) :
    (type.withArray true).indexed? = some (type.withArray false) := by
  cases type <;> rfl

/-- Without its brackets a declared type is no array. -/
theorem ofTypeName_bracketless (t : TypeName) :
    ofTypeName t.bracketless = (ofTypeName t).withArray false := by
  induction t with
  | array element length ih =>
    rw [TypeName.bracketless, ih, ofTypeName, withArray_withArray]
  | named path => rfl
  | mapping key value => rfl
  | function => rfl

theorem indexed?_ofTypeName (t : TypeName) :
    (ofTypeName t).indexed? = t.indexed?.map ofTypeName := by
  cases t with
  | array element length =>
    rw [ofTypeName, indexed?_withArray_true, ← ofTypeName_bracketless]
    rfl
  | named path => rfl
  | mapping key value => rfl
  | function => rfl

theorem afterIndexes?_succ (n : Nat) (type : TypeRef) :
    afterIndexes? (n + 1) type = (afterIndexes? n type).bind indexed? := by
  induction n generalizing type with
  | zero => cases h : type.indexed? <;> simp [afterIndexes?, h]
  | succ n ih =>
    rw [afterIndexes?, afterIndexes?]
    cases type.indexed? with
    | none => rfl
    | some next => exact ih next

theorem afterIndexes?_ofTypeName (k : Nat) (t : TypeName) :
    afterIndexes? k (ofTypeName t) = (t.afterIndexes? k).map ofTypeName := by
  induction k with
  | zero => rfl
  | succ k ih =>
    rw [afterIndexes?_succ, ih, TypeName.afterIndexes?]
    cases t.afterIndexes? k with
    | none => rfl
    | some s => exact indexed?_ofTypeName s

end TypeRef

namespace Viewpoint

theorem applyIndexes_value (k : Nat) (type : TypeRef) :
    applyIndexes k (.value type) = (type.afterIndexes? k).map .value := by
  cases k <;> rfl

/-- Any number of indexes on a value of a declared type leads to the declared type that as many
steps on the declaration leave, each of which takes one layer away. They lead nowhere exactly if
one of the steps meets a type that is neither an array nor a mapping. -/
theorem applyIndexes_ofTypeName (t : TypeName) (k : Nat) :
    applyIndexes k (.value (.ofTypeName t)) =
        (t.afterIndexes? k).map (fun s => .value (.ofTypeName s)) ∧
      (applyIndexes k (.value (.ofTypeName t)) = none ↔
        ∃ j < k, ∃ s, t.afterIndexes? j = some s ∧ s.isArray = false ∧ s.isMapping = false) ∧
      ∀ s, t.afterIndexes? k = some s → s.layers + k = t.layers := by
  have hvalue : applyIndexes k (.value (.ofTypeName t)) =
      (t.afterIndexes? k).map (fun s => .value (.ofTypeName s)) := by
    rw [applyIndexes_value, TypeRef.afterIndexes?_ofTypeName, Option.map_map]
    rfl
  refine ⟨hvalue, ?_, fun s hs => TypeName.layers_of_afterIndexes? hs⟩
  rw [hvalue, Option.map_eq_none_iff]
  exact TypeName.afterIndexes?_eq_none_iff

-- Two pairs of brackets are one layer, and so is each of the two mappings that they lie between.
example : applyIndexes 3 (.value (.ofTypeName
    (.mapping (.named "address") (.array (.array (.mapping (.named "uint") (.named "S")) none)
      (some "2"))))) = some (.value (.named "S" false)) := by decide

end Viewpoint

end SolidityCompass
