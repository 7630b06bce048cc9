import SolidityCompass.Outline.Contract

/-!
# Reading an outline

`readOutline` turns a text into its outline and the list of all syntax errors in it. Reading
never fails as a whole: items that cannot be read are reported and left out, so that a document
in the middle of an edit still has its contracts. `Parsed.strict` refuses a text with errors.
-/

namespace SolidityCompass

def Reading.endsImport (kind : Kind) : Bool :=
  kind = .semicolon ||
    (kind.isKeyword && kind != .keyword .asKw && kind != .keyword .fromKw)

def unquote (literal : String) : String :=
  String.ofList literal.toList.tail.dropLast

namespace Reading

def importLiteral? (c : Cursor) : Option Token :=
  (c.rest.takeWhile (fun t => !endsImport t.kind)).find? (fun t => t.kind = .string)

/-- Reads an import at its keyword. Its range ends before the semicolon. -/
def fileImport (r : Reading) : Option Import × Reading :=
  let s := r.advance.goTo (r.cursor.advance.skipUntil endsImport)
  let range := s.rangeFrom r.here.start
  let s := s.expect .semicolon
  match importLiteral? r.cursor.advance with
  | some literal => (some ⟨unquote literal.text, literal.range, range⟩, s)
  | none => (none, s.reportAt .importWithoutPath range)

theorem reaches_fileImport (r : Reading) : r.advance.Reaches r.fileImport.2 := by
  have h := (Cursor.reaches_skipUntil endsImport r.cursor.advance).trans
    (reaches_expect (r.advance.goTo (r.cursor.advance.skipUntil endsImport)) .semicolon)
  unfold fileImport
  dsimp only
  split <;> exact h

/-- Reads one item at the top level. Items that no outline shows, such as pragmas and free
functions, are skipped without a report. -/
def item (r : Reading) : Option Item × Reading :=
  match r.kind? with
  | some (.keyword .importKw) => (r.fileImport.1.map .fileImport, r.fileImport.2)
  | some (.keyword .abstractKw) | some (.keyword .contractKw) | some (.keyword .libraryKw)
  | some (.keyword .interfaceKw) => (r.contract.1.map .contract, r.contract.2)
  | some (.keyword .structKw) => (r.struct.1.map .struct, r.struct.2)
  | some (.keyword .enumKw) => (r.enum.1.map .enum, r.enum.2)
  | some (.closes .brace) => (none, (r.report .unexpectedBrace).advance)
  | _ => (none, r.skipItem)

theorem passes_contract {r : Reading} {word : Keyword} (h : r.kind? = some (.keyword word))
    (hw : word = .abstractKw ∨ ∃ kind, r.contractKind? = some kind) :
    r.Passes r.contract.2 := by
  unfold contract
  split
  next =>
    exact (Cursor.passes_advance_of_kind? h).trans_reaches (reaches_contractFrom _ _ _)
  next hs =>
    rcases hw with rfl | ⟨kind, hk⟩
    · exact absurd (Cursor.sees_of_kind? h) hs
    · exact passes_contractFrom hk

theorem passes_item {r : Reading} {kind : Kind} (h : r.kind? = some kind) :
    r.Passes r.item.2 := by
  have ha : r.Passes r.advance := Cursor.passes_advance_of_kind? h
  unfold item
  split
  next => exact ha.trans_reaches r.reaches_fileImport
  next hk => exact passes_contract hk (Or.inl rfl)
  next hk => exact passes_contract hk (Or.inr ⟨.contract, by simp [contractKind?, hk]⟩)
  next hk => exact passes_contract hk (Or.inr ⟨.library, by simp [contractKind?, hk]⟩)
  next hk => exact passes_contract hk (Or.inr ⟨.interface, by simp [contractKind?, hk]⟩)
  next => exact ha.trans_reaches r.reaches_struct
  next => exact ha.trans_reaches r.reaches_enum
  next => exact ha
  next _ _ _ _ _ _ _ hk =>
    exact Cursor.passes_skipItem h (fun hb => hk (by rw [h, hb]))

def items (r : Reading) : List Item × Reading :=
  match h : r.kind? with
  | none => ([], r)
  | some _ =>
    have : r.item.2.cursor.rest.length < r.cursor.rest.length := (passes_item h).length_lt
    let tail := items r.item.2
    (r.item.1.toList ++ tail.1, tail.2)
termination_by r.cursor.rest.length

/-- The start of reading a text: all significant tokens lie ahead, and the characters that begin
no token are already reported. -/
def start (text : String) : Reading :=
  let tokens := tokenize text
  let strays := tokens.filter (fun t => t.kind = .error)
  { cursor :=
      { passed := 0
        rest := tokens.filter (fun t => t.kind.isSignificant)
        textEnd := byteLength text.toList }
    faults := (strays.map fun t => ⟨.unexpectedCharacter, t.range⟩).reverse }

end Reading

/-- An outline and the syntax errors met while reading it, stray characters first and then in
the order of reading. -/
structure Parsed where
  outline : Outline
  errors : List SyntaxError
deriving Repr, DecidableEq, Inhabited

def readOutline (text : String) : Parsed :=
  let found := (Reading.start text).items
  ⟨⟨found.1⟩, found.2.faults.reverse⟩

def Parsed.strict (parsed : Parsed) : Except (List SyntaxError) Outline :=
  if parsed.errors.isEmpty then .ok parsed.outline else .error parsed.errors

end SolidityCompass
