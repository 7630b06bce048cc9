import SolidityCompass.Proofs.Spelling

/-!
# Printing outlines

The words of a declaration are the tokens that declare it and nothing more: no visibility, no
initial values, and no statements but the declarations of local variables. An outline is
canonical if its names are plain identifiers, its special functions carry the names of their
keywords, and no function type begins a state variable or a local variable.
-/

namespace SolidityCompass

open Spelling

def reservedWords : List String :=
  ["payable", "indexed", "anonymous", "global", "error", "type", "external", "internal", "pure",
   "view"] ++ Cursor.statementWords

/-- An identifier that may stand in any place. -/
def IsPlain (text : String) : Prop :=
  IsToken .ident text ∧ text ∉ reservedWords

instance (text : String) : Decidable (IsPlain text) := inferInstanceAs (Decidable (_ ∧ _))

theorem ne_of_not_reserved {text reserved : String} (h : text ∉ reservedWords)
    (hmem : reserved ∈ reservedWords) : text ≠ reserved := by
  rintro rfl
  exact h hmem

def pathWords (path : String) : List String :=
  (path.toList.splitOn '.').map String.ofList

def dotted : List String → List Spelling
  | [] => []
  | first :: others => ident first :: others.flatMap fun w => [dot, ident w]

def IsPath (path : String) : Prop :=
  ∀ w ∈ pathWords path, IsPlain w

instance (path : String) : Decidable (IsPath path) := inferInstanceAs (Decidable (∀ _ ∈ _, _))

namespace TypeName

/-- An array length is a number or an identifier. -/
def lengthWord (text : String) : Spelling :=
  if IsToken .number text then ⟨.number, text⟩ else ident text

def words : TypeName → List Spelling
  | named path =>
    if path = "address payable" then [ident "address", ident "payable"]
    else dotted (pathWords path)
  | mapping key value =>
    word .mappingKw :: opening .paren :: (key.words ++ arrow :: (value.words ++ [closing .paren]))
  | array element length =>
    element.words ++ opening .square :: (length.toList.map lengthWord ++ [closing .square])
  | function => [word .functionKw, opening .paren, closing .paren]

def Canonical : TypeName → Prop
  | named path => path = "address payable" ∨ IsPath path
  | mapping key value => key.Canonical ∧ value.Canonical
  | array element length =>
    element.Canonical ∧ ∀ text ∈ length, IsToken .number text ∨ IsToken .ident text
  | function => True

def StartsFunction : TypeName → Prop
  | array element _ => element.StartsFunction
  | function => True
  | _ => False

instance decidableCanonical : (type : TypeName) → Decidable type.Canonical
  | named _ => inferInstanceAs (Decidable (_ ∨ _))
  | mapping key value =>
    have := decidableCanonical key
    have := decidableCanonical value
    inferInstanceAs (Decidable (_ ∧ _))
  | array element _ =>
    have := decidableCanonical element
    inferInstanceAs (Decidable (_ ∧ _))
  | function => inferInstanceAs (Decidable True)

instance decidableStartsFunction : (type : TypeName) → Decidable type.StartsFunction
  | array element _ => decidableStartsFunction element
  | function => inferInstanceAs (Decidable True)
  | named _ => inferInstanceAs (Decidable False)
  | mapping _ _ => inferInstanceAs (Decidable False)

end TypeName

def DataLocation.keyword : DataLocation → Keyword
  | memory => .memoryKw
  | storage => .storageKw
  | calldata => .calldataKw

def ContractKind.keyword : ContractKind → Keyword
  | contract => .contractKw
  | library => .libraryKw
  | interface => .interfaceKw

def commas (parts : List (List Spelling)) : List Spelling :=
  [comma].intercalate parts

def declarationWords (type : TypeName) (name : Name) : List Spelling :=
  type.words ++ [ident name.text, semicolon]

def locationWords (location : Option DataLocation) : List Spelling :=
  (location.map fun location => word location.keyword).toList

def nameWords (name : Option Name) : List Spelling :=
  (name.map fun name => ident name.text).toList

def Parameter.words (p : Parameter) : List Spelling :=
  p.type.words ++ (locationWords p.location ++ nameWords p.name)

def listWords (params : List Parameter) : List Spelling :=
  opening .paren :: (commas (params.map Parameter.words) ++ [closing .paren])

def Body.words (b : Body) : List Spelling :=
  opening .brace :: (b.locals.flatMap (fun v => declarationWords v.type v.name) ++
    [closing .brace])

namespace Function

def headWords (f : Function) : List Spelling :=
  match f.kind with
  | .function => [word .functionKw, ident f.name.text]
  | .constructor => [word .constructorKw]
  | .fallback => [word .fallbackKw]
  | .receive => [word .receiveKw]

def returnsWords (f : Function) : List Spelling :=
  if f.returns = [] then [] else word .returnsKw :: listWords f.returns

def bodyWords (f : Function) : List Spelling :=
  (f.body.map Body.words).getD [semicolon]

def words (f : Function) : List Spelling :=
  f.headWords ++ (listWords f.params ++ (f.returnsWords ++ f.bodyWords))

end Function

def Event.words (e : Event) : List Spelling :=
  word .eventKw :: ident e.name.text :: (listWords e.params ++ [semicolon])

def Struct.words (s : Struct) : List Spelling :=
  word .structKw :: ident s.name.text :: opening .brace ::
    (s.fields.flatMap (fun f => declarationWords f.type f.name) ++ [closing .brace])

def Enum.words (e : Enum) : List Spelling :=
  word .enumKw :: ident e.name.text :: opening .brace ::
    (commas (e.members.map fun m => [ident m.text]) ++ [closing .brace])

def Using.words (u : Using) : List Spelling :=
  word .usingKw :: (dotted (pathWords u.library) ++ word .forKw ::
    ((u.target.map TypeName.words).getD [star] ++ [semicolon]))

def Member.words : Member → List Spelling
  | function f => f.words
  | event e => e.words
  | .variable v => declarationWords v.type v.name
  | struct s => s.words
  | enum e => e.words
  | usingFor u => u.words

namespace Contract

def basesWords (c : Contract) : List Spelling :=
  if c.bases = [] then []
  else word .isKw :: commas (c.bases.map fun base => dotted (pathWords base))

def words (c : Contract) : List Spelling :=
  (if c.isAbstract then [word .abstractKw] else []) ++
    word c.kind.keyword :: ident c.name.text :: (c.basesWords ++ opening .brace ::
      (c.members.flatMap Member.words ++ [closing .brace]))

end Contract

def Import.words (i : Import) : List Spelling :=
  [word .importKw, quoted i.path, semicolon]

def Item.words : Item → List Spelling
  | fileImport i => i.words
  | contract c => c.words
  | struct s => s.words
  | enum e => e.words

def Outline.words (outline : Outline) : List Spelling :=
  outline.items.flatMap Item.words

def Outline.print (outline : Outline) : String :=
  render outline.words

/-! ## Canonical outlines -/

def Parameter.Canonical (p : Parameter) : Prop :=
  p.type.Canonical ∧ ∀ name ∈ p.name, IsPlain name.text

/-- A state variable or a local variable, which no function type may begin. -/
def IsDeclaration (type : TypeName) (name : Name) : Prop :=
  type.Canonical ∧ ¬ type.StartsFunction ∧ IsPlain name.text

namespace Function

/-- The name is plain, and that of a special function is its keyword. -/
def NameFits (f : Function) : Prop :=
  match f.kind with
  | .function => IsPlain f.name.text
  | .constructor => f.name.text = "constructor"
  | .fallback => f.name.text = "fallback"
  | .receive => f.name.text = "receive"

def Canonical (f : Function) : Prop :=
  f.NameFits ∧ (∀ p ∈ f.params, p.Canonical) ∧ (∀ p ∈ f.returns, p.Canonical) ∧
    ∀ v ∈ f.locals, IsDeclaration v.type v.name

end Function

def Event.Canonical (e : Event) : Prop :=
  IsPlain e.name.text ∧ ∀ p ∈ e.params, p.Canonical

def Struct.Canonical (s : Struct) : Prop :=
  IsPlain s.name.text ∧ ∀ f ∈ s.fields, f.type.Canonical ∧ IsPlain f.name.text

def Enum.Canonical (e : Enum) : Prop :=
  IsPlain e.name.text ∧ ∀ m ∈ e.members, IsPlain m.text

def Using.Canonical (u : Using) : Prop :=
  IsPath u.library ∧ ∀ target ∈ u.target, target.Canonical

def Member.Canonical : Member → Prop
  | function f => f.Canonical
  | event e => e.Canonical
  | .variable v => IsDeclaration v.type v.name
  | struct s => s.Canonical
  | enum e => e.Canonical
  | usingFor u => u.Canonical

def Contract.Canonical (c : Contract) : Prop :=
  IsPlain c.name.text ∧ (∀ base ∈ c.bases, IsPath base) ∧ ∀ m ∈ c.members, m.Canonical

/-- The path has no character that would end or escape its quotes. -/
def Import.Canonical (i : Import) : Prop :=
  ∀ d ∈ i.path.toList, d ≠ '"' ∧ d ≠ '\\' ∧ d ≠ '\r' ∧ d ≠ '\n'

def Item.Canonical : Item → Prop
  | fileImport i => i.Canonical
  | contract c => c.Canonical
  | struct s => s.Canonical
  | enum e => e.Canonical

def Outline.Canonical (outline : Outline) : Prop :=
  ∀ x ∈ outline.items, x.Canonical

section decidable

instance (p : Parameter) : Decidable p.Canonical := inferInstanceAs (Decidable (_ ∧ _))

instance (type : TypeName) (name : Name) : Decidable (IsDeclaration type name) :=
  inferInstanceAs (Decidable (_ ∧ _))

instance : (f : Function) → Decidable f.NameFits
  | ⟨.function, name, _, _, _, _⟩ => inferInstanceAs (Decidable (IsPlain name.text))
  | ⟨.constructor, name, _, _, _, _⟩ => inferInstanceAs (Decidable (name.text = "constructor"))
  | ⟨.fallback, name, _, _, _, _⟩ => inferInstanceAs (Decidable (name.text = "fallback"))
  | ⟨.receive, name, _, _, _, _⟩ => inferInstanceAs (Decidable (name.text = "receive"))

instance (f : Function) : Decidable f.Canonical := inferInstanceAs (Decidable (_ ∧ _))

instance (e : Event) : Decidable e.Canonical := inferInstanceAs (Decidable (_ ∧ _))

instance (s : Struct) : Decidable s.Canonical := inferInstanceAs (Decidable (_ ∧ _))

instance (e : Enum) : Decidable e.Canonical := inferInstanceAs (Decidable (_ ∧ _))

instance (u : Using) : Decidable u.Canonical := inferInstanceAs (Decidable (_ ∧ _))

instance : (m : Member) → Decidable m.Canonical
  | .function f => inferInstanceAs (Decidable f.Canonical)
  | .event e => inferInstanceAs (Decidable e.Canonical)
  | .variable v => inferInstanceAs (Decidable (IsDeclaration v.type v.name))
  | .struct s => inferInstanceAs (Decidable s.Canonical)
  | .enum e => inferInstanceAs (Decidable e.Canonical)
  | .usingFor u => inferInstanceAs (Decidable u.Canonical)

instance (c : Contract) : Decidable c.Canonical := inferInstanceAs (Decidable (_ ∧ _))

instance (i : Import) : Decidable i.Canonical := List.decidableBAll _ i.path.toList

instance : (x : Item) → Decidable x.Canonical
  | .fileImport i => inferInstanceAs (Decidable i.Canonical)
  | .contract c => inferInstanceAs (Decidable c.Canonical)
  | .struct s => inferInstanceAs (Decidable s.Canonical)
  | .enum e => inferInstanceAs (Decidable e.Canonical)

instance (outline : Outline) : Decidable outline.Canonical :=
  inferInstanceAs (Decidable (∀ _ ∈ _, _))

end decidable

/-! ## Outlines without places

Erasing puts the empty range at the start of the text in place of every range.
-/

def Name.erase (n : Name) : Name := { n with range := .empty 0 }

def Parameter.erase (p : Parameter) : Parameter :=
  { p with name := p.name.map Name.erase, range := .empty 0 }

def LocalVariable.erase (v : LocalVariable) : LocalVariable :=
  { v with name := v.name.erase, range := .empty 0 }

def Body.erase (b : Body) : Body :=
  { b with locals := b.locals.map LocalVariable.erase, range := .empty 0 }

def Function.erase (f : Function) : Function :=
  { f with
    name := f.name.erase
    params := f.params.map Parameter.erase
    returns := f.returns.map Parameter.erase
    body := f.body.map Body.erase
    range := .empty 0 }

def Event.erase (e : Event) : Event :=
  { e with name := e.name.erase, params := e.params.map Parameter.erase, range := .empty 0 }

def StateVariable.erase (v : StateVariable) : StateVariable :=
  { v with name := v.name.erase, range := .empty 0 }

def Field.erase (f : Field) : Field := { f with name := f.name.erase }

def Struct.erase (s : Struct) : Struct :=
  { s with name := s.name.erase, fields := s.fields.map Field.erase, range := .empty 0 }

def Enum.erase (e : Enum) : Enum :=
  { e with name := e.name.erase, members := e.members.map Name.erase, range := .empty 0 }

def Using.erase (u : Using) : Using := { u with range := .empty 0 }

def Member.erase : Member → Member
  | .function f => .function f.erase
  | .event e => .event e.erase
  | .variable v => .variable v.erase
  | .struct s => .struct s.erase
  | .enum e => .enum e.erase
  | .usingFor u => .usingFor u.erase

def Contract.erase (c : Contract) : Contract :=
  { c with name := c.name.erase, members := c.members.map Member.erase, range := .empty 0 }

def Import.erase (i : Import) : Import :=
  { i with literal := .empty 0, range := .empty 0 }

def Item.erase : Item → Item
  | .fileImport i => .fileImport i.erase
  | .contract c => .contract c.erase
  | .struct s => .struct s.erase
  | .enum e => .enum e.erase

def Outline.erase (outline : Outline) : Outline := ⟨outline.items.map Item.erase⟩

/-! ## The words of canonical outlines are tokens -/

theorem lexes_plain {text : String} (h : IsPlain text) : (ident text).Lexes :=
  lexes_ident h.1

theorem lexes_word (keyword : Keyword) : (word keyword).Lexes :=
  lexes_keyword keyword

theorem lexes_commas {parts : List (List Spelling)} (h : ∀ part ∈ parts, ∀ w ∈ part, w.Lexes) :
    ∀ w ∈ commas parts, w.Lexes := by
  induction parts with
  | nil => simp [commas]
  | cons part parts ih =>
    rw [List.forall_mem_cons] at h
    cases parts with
    | nil => simpa [commas] using h.1
    | cons next parts =>
      rw [commas, List.intercalate_cons_cons, List.forall_mem_append, List.forall_mem_append,
        List.forall_mem_singleton]
      exact ⟨⟨h.1, lexes_comma⟩, ih h.2⟩

theorem lexes_dotted {names : List String} (h : ∀ name ∈ names, IsPlain name) :
    ∀ w ∈ dotted names, w.Lexes := by
  cases names with
  | nil => simp [dotted]
  | cons first others =>
    rw [List.forall_mem_cons] at h
    rw [dotted, List.forall_mem_cons]
    refine ⟨lexes_plain h.1, List.forall_mem_flatMap.mpr fun name hname => ?_⟩
    rw [List.forall_mem_cons, List.forall_mem_singleton]
    exact ⟨lexes_dot, lexes_plain (h.2 name hname)⟩

theorem lexes_lengthWord {text : String} (h : IsToken .number text ∨ IsToken .ident text) :
    (TypeName.lengthWord text).Lexes := by
  unfold TypeName.lengthWord
  split
  next hnumber => exact lexes_number hnumber
  next hother => exact lexes_ident (h.resolve_left hother)

theorem TypeName.lexes_words {type : TypeName} (h : type.Canonical) :
    ∀ w ∈ type.words, w.Lexes := by
  induction type with
  | named path =>
    unfold words
    split
    next =>
      rw [List.forall_mem_cons, List.forall_mem_singleton]
      exact ⟨lexes_ident (by decide +kernel), lexes_ident (by decide +kernel)⟩
    next hpath => exact lexes_dotted (h.resolve_left hpath)
  | mapping key value hkey hvalue =>
    simp only [words, List.forall_mem_cons, List.forall_mem_append]
    exact ⟨lexes_word _, lexes_opening _, hkey h.1, lexes_arrow, hvalue h.2, lexes_closing _,
      by simp⟩
  | array element length helement =>
    simp only [words, List.forall_mem_cons, List.forall_mem_append]
    refine ⟨helement h.1, lexes_opening _, fun w hw => ?_, lexes_closing _, by simp⟩
    obtain ⟨text, htext, rfl⟩ := List.mem_map.mp hw
    exact lexes_lengthWord (h.2 text (Option.mem_toList.mp htext))
  | function =>
    simp only [words, List.forall_mem_cons]
    exact ⟨lexes_word _, lexes_opening _, lexes_closing _, by simp⟩

theorem lexes_declarationWords {type : TypeName} {name : Name} (htype : type.Canonical)
    (hname : IsPlain name.text) : ∀ w ∈ declarationWords type name, w.Lexes := by
  simp only [declarationWords, List.forall_mem_cons, List.forall_mem_append]
  exact ⟨TypeName.lexes_words htype, lexes_plain hname, lexes_semicolon, by simp⟩

theorem Parameter.lexes_words {p : Parameter} (h : p.Canonical) : ∀ w ∈ p.words, w.Lexes := by
  simp only [words, List.forall_mem_append]
  refine ⟨TypeName.lexes_words h.1, fun w hw => ?_, fun w hw => ?_⟩
  · obtain ⟨location, -, rfl⟩ := Option.map_eq_some_iff.mp (Option.mem_toList.mp hw)
    exact lexes_word _
  · obtain ⟨name, hname, rfl⟩ := Option.map_eq_some_iff.mp (Option.mem_toList.mp hw)
    exact lexes_plain (h.2 name hname)

theorem lexes_listWords {params : List Parameter} (h : ∀ p ∈ params, p.Canonical) :
    ∀ w ∈ listWords params, w.Lexes := by
  simp only [listWords, List.forall_mem_cons, List.forall_mem_append]
  refine ⟨lexes_opening _, lexes_commas ?_, lexes_closing _, by simp⟩
  rw [List.forall_mem_map]
  exact fun p hp => p.lexes_words (h p hp)

theorem Function.lexes_words {f : Function} (h : f.Canonical) : ∀ w ∈ f.words, w.Lexes := by
  obtain ⟨hname, hparams, hreturns, hlocals⟩ := h
  simp only [words, List.forall_mem_append]
  refine ⟨?_, lexes_listWords hparams, ?_, ?_⟩
  · obtain ⟨kind, name, params, returns, body, range⟩ := f
    cases kind
    · simp only [headWords, List.forall_mem_cons]
      exact ⟨lexes_word _, lexes_plain hname, by simp⟩
    all_goals
      simp only [headWords, List.forall_mem_singleton]
      exact lexes_word _
  · unfold returnsWords
    split
    · simp
    · rw [List.forall_mem_cons]
      exact ⟨lexes_word _, lexes_listWords hreturns⟩
  · unfold bodyWords
    cases hbody : f.body with
    | none => simpa using lexes_semicolon
    | some b =>
      simp only [Option.map_some, Option.getD_some, Body.words, List.forall_mem_cons,
        List.forall_mem_append]
      refine ⟨lexes_opening _, List.forall_mem_flatMap.mpr fun v hv => ?_, lexes_closing _, by simp⟩
      have hv' := hlocals v (by simpa [locals, hbody] using hv)
      exact lexes_declarationWords hv'.1 hv'.2.2

theorem Struct.lexes_words {s : Struct} (h : s.Canonical) : ∀ w ∈ s.words, w.Lexes := by
  simp only [words, List.forall_mem_cons, List.forall_mem_append]
  exact ⟨lexes_word _, lexes_plain h.1, lexes_opening _,
    List.forall_mem_flatMap.mpr fun f hf => lexes_declarationWords (h.2 f hf).1 (h.2 f hf).2,
    lexes_closing _, by simp⟩

theorem Enum.lexes_words {e : Enum} (h : e.Canonical) : ∀ w ∈ e.words, w.Lexes := by
  simp only [words, List.forall_mem_cons, List.forall_mem_append]
  refine ⟨lexes_word _, lexes_plain h.1, lexes_opening _, lexes_commas ?_, lexes_closing _, by simp⟩
  rw [List.forall_mem_map]
  intro m hm
  rw [List.forall_mem_singleton]
  exact lexes_plain (h.2 m hm)

theorem Using.lexes_words {u : Using} (h : u.Canonical) : ∀ w ∈ u.words, w.Lexes := by
  simp only [words, List.forall_mem_cons, List.forall_mem_append]
  refine ⟨lexes_word _, lexes_dotted h.1, lexes_word _, ?_, lexes_semicolon, by simp⟩
  cases htarget : u.target with
  | none => simpa using lexes_star
  | some target => exact TypeName.lexes_words (h.2 target htarget)

theorem Member.lexes_words {m : Member} (h : m.Canonical) : ∀ w ∈ m.words, w.Lexes := by
  cases m with
  | function f => exact f.lexes_words h
  | event e =>
    simp only [words, Event.words, List.forall_mem_cons, List.forall_mem_append]
    exact ⟨lexes_word _, lexes_plain h.1, lexes_listWords h.2, lexes_semicolon, by simp⟩
  | «variable» v => exact lexes_declarationWords h.1 h.2.2
  | struct s => exact s.lexes_words h
  | enum e => exact e.lexes_words h
  | usingFor u => exact u.lexes_words h

theorem Contract.lexes_words {c : Contract} (h : c.Canonical) : ∀ w ∈ c.words, w.Lexes := by
  obtain ⟨hname, hbases, hmembers⟩ := h
  simp only [words, List.forall_mem_cons, List.forall_mem_append]
  refine ⟨?_, lexes_word _, lexes_plain hname, ?_, lexes_opening _,
    List.forall_mem_flatMap.mpr fun m hm => m.lexes_words (hmembers m hm), lexes_closing _, by simp⟩
  · split
    · simpa using lexes_word _
    · simp
  · unfold basesWords
    split
    · simp
    · rw [List.forall_mem_cons]
      refine ⟨lexes_word _, lexes_commas ?_⟩
      rw [List.forall_mem_map]
      exact fun base hbase => lexes_dotted (hbases base hbase)

theorem Item.lexes_words {x : Item} (h : x.Canonical) : ∀ w ∈ x.words, w.Lexes := by
  cases x with
  | fileImport i =>
    simp only [words, Import.words, List.forall_mem_cons]
    exact ⟨lexes_word _, lexes_quoted h, lexes_semicolon, by simp⟩
  | contract c => exact c.lexes_words h
  | struct s => exact s.lexes_words h
  | enum e => exact e.lexes_words h

theorem Outline.lexes_words {outline : Outline} (h : outline.Canonical) :
    ∀ w ∈ outline.words, w.Lexes :=
  List.forall_mem_flatMap.mpr fun x hx => x.lexes_words (h x hx)

end SolidityCompass
