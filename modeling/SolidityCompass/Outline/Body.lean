import SolidityCompass.Outline.TypeName

/-!
# Function bodies

A body is walked token by token up to the brace that closes it. At the start of a statement the
walk looks for declarations of local variables; where there are none, the cursor stays and the
tokens are walked over like all others.
-/

namespace SolidityCompass

namespace Cursor

def statementWords : List String :=
  ["assembly", "break", "catch", "continue", "do", "else", "if", "revert", "throw", "try",
   "unchecked", "while"]

def startsDeclaration (t : Token) : Bool :=
  (t.kind.isName || t.kind = .keyword .mappingKw) &&
    !(t.kind = .ident && statementWords.contains t.text)

def declarationHead? (c : Cursor) : Option (LocalVariable × Cursor) :=
  if c.rest.head?.any startsDeclaration then
    match c.typeName with
    | (none, _) => none
    | (some type, d) =>
      d.skipLocation.name?.map fun (name, e) =>
        (⟨type, name, ⟨c.here.start, name.range.stop⟩⟩, e)
  else none

theorem passes_of_declarationHead? {c d : Cursor} {v : LocalVariable}
    (h : c.declarationHead? = some (v, d)) : c.Passes d := by
  unfold declarationHead? at h
  split at h
  next =>
    split at h
    next => cases h
    next type e he =>
      obtain ⟨⟨name, f⟩, hf, hd⟩ := Option.map_eq_some_iff.mp h
      cases hd
      exact (passes_of_typeName he).trans_reaches
        (e.reaches_skipLocation.trans (passes_of_name? hf).reaches)
  next => cases h

def separatesHeads (kind : Kind) : Bool :=
  kind = .comma || kind = .closes .paren

/-- Reads declarations separated by commas, slots left empty allowed, up to and with the closing
parenthesis. -/
def tupleHeads? (c : Cursor) : Option (List LocalVariable × Cursor) :=
  match h : c.kind? with
  | some .comma =>
    have := (passes_advance_of_kind? h).length_lt
    tupleHeads? c.advance
  | some (.closes .paren) => some ([], c.advance)
  | _ =>
    match h : c.declarationHead? with
    | none => none
    | some (v, d) =>
      have := (passes_of_declarationHead? h).length_lt
      if d.seesAny separatesHeads then
        (tupleHeads? d).map fun (vs, e) => (v :: vs, e)
      else none
termination_by c.rest.length

theorem passes_of_tupleHeads? {c d : Cursor} {vs : List LocalVariable}
    (h : c.tupleHeads? = some (vs, d)) : c.Passes d := by
  fun_induction tupleHeads? c generalizing vs d with
  | case1 c hk _ ih => exact (passes_advance_of_kind? hk).trans_reaches (ih h).reaches
  | case2 c hk => cases h; exact passes_advance_of_kind? hk
  | case3 => cases h
  | case4 c v e he _ _ _ _ ih =>
    obtain ⟨⟨ws, f⟩, hf, hd⟩ := Option.map_eq_some_iff.mp h
    cases hd
    exact (passes_of_declarationHead? he).trans_reaches (ih hf).reaches
  | case5 => cases h

/-- Reads the declarations of a statement: one before `=` or `;`, or a tuple of them before `=`. -/
def declarations? (c : Cursor) : Option (List LocalVariable × Cursor) :=
  if c.sees (.opens .paren) then
    c.advance.tupleHeads?.filter fun (vs, d) => !vs.isEmpty && d.sees .eq
  else
    (c.declarationHead?.filter fun (_, d) => d.sees .eq || d.sees .semicolon).map
      fun (v, d) => ([v], d)

theorem passes_of_declarations? {c d : Cursor} {vs : List LocalVariable}
    (h : c.declarations? = some (vs, d)) : c.Passes d := by
  unfold declarations? at h
  split at h
  next =>
    have h' := (Option.filter_eq_some_iff.mp h).1
    exact c.reaches_advance.trans_passes (passes_of_tupleHeads? h')
  next =>
    obtain ⟨⟨v, e⟩, he, hd⟩ := Option.map_eq_some_iff.mp h
    cases hd
    exact passes_of_declarationHead? (Option.filter_eq_some_iff.mp he).1

def declarations (c : Cursor) : List LocalVariable × Cursor :=
  c.declarations?.getD ([], c)

theorem reaches_declarations (c : Cursor) : c.Reaches c.declarations.2 := by
  unfold declarations
  cases h : c.declarations? with
  | none => exact .refl c
  | some found => exact (passes_of_declarations? (show _ = some (found.1, found.2) from h)).reaches

inductive Place where
  | fresh
  | afterFor
  | inside
deriving Repr, DecidableEq, Inhabited

/-- The place after a token: a statement starts after `;` and braces, after `else` and `do`, and
after the parenthesis of a `for`. -/
def Place.after (place : Place) (t : Token) : Place :=
  match t.kind with
  | .opens .brace | .closes .brace | .semicolon => .fresh
  | .opens .paren => if place = .afterFor then .fresh else .inside
  | .keyword .forKw => .afterFor
  | .ident => if t.text = "else" || t.text = "do" then .fresh else .inside
  | _ => .inside

def declarationsAt (place : Place) (c : Cursor) : List LocalVariable × Cursor :=
  if place = .fresh then c.declarations else ([], c)

theorem reaches_declarationsAt (place : Place) (c : Cursor) :
    c.Reaches (c.declarationsAt place).2 := by
  unfold declarationsAt
  split
  · exact c.reaches_declarations
  · exact .refl c

def blocksAfter (inner : Nat) : Kind → Nat
  | .opens .brace => inner + 1
  | .closes .brace => inner - 1
  | _ => inner

/-- What the walk over a body finds: its locals, the end of its closing brace if there is one,
and where reading goes on. -/
structure BodyScan where
  locals : List LocalVariable
  closed : Option Nat
  cursor : Cursor

def scanBody (inner : Nat) (place : Place) (c : Cursor) : BodyScan :=
  match h : (c.declarationsAt place).2.rest with
  | [] => ⟨(c.declarationsAt place).1, none, (c.declarationsAt place).2⟩
  | t :: _ =>
    let d := (c.declarationsAt place).2.advance
    if t.kind = .closes .brace && inner = 0 then
      ⟨(c.declarationsAt place).1, some t.range.stop, d⟩
    else
      have : d.rest.length < c.rest.length :=
        ((c.reaches_declarationsAt place).trans_passes (passes_advance (by simp [h]))).length_lt
      let tail := scanBody (blocksAfter inner t.kind) (place.after t) d
      { tail with locals := (c.declarationsAt place).1 ++ tail.locals }
termination_by c.rest.length
decreasing_by assumption

theorem reaches_scanBody (inner : Nat) (place : Place) (c : Cursor) :
    c.Reaches (scanBody inner place c).cursor := by
  fun_induction scanBody inner place c with
  | case1 inner place c _ => exact c.reaches_declarationsAt place
  | case2 inner place c _ _ _ d _ =>
    exact (c.reaches_declarationsAt place).trans (reaches_advance _)
  | case3 inner place c _ _ _ d _ _ tail ih =>
    exact (c.reaches_declarationsAt place).trans ((reaches_advance _).trans ih)

end Cursor

end SolidityCompass
