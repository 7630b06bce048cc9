import SolidityCompass.Proofs.OutlineRanges

/-!
# The names of an outline stand in the text

A token is a slice of its text, and every name of an outline was read off a token, so the text at
the range of a name is the name. The one exception is a function without a name, which is called
`fallback` and is found at its keyword. Each reader keeps this for the names that it finds, whatever
errors it meets.
-/

namespace SolidityCompass

theorem isSlice_of_mem_significant {text : String} {t : Token} (h : t ∈ significant text) :
    IsSlice text t.range t.text :=
  isSlice_of_mem_tokenize (List.mem_filter.mp h).1

theorem Token.text_ne_empty {text : String} {t : Token} (h : t ∈ significant text) :
    t.text ≠ "" := by
  intro hempty
  obtain ⟨front, back, -, hrange⟩ := isSlice_of_mem_significant h
  have hlt := (ordered_significant text).nonempty t h
  simp [hrange, hempty] at hlt

theorem wordKind_of_lexeme_keyword {c : Char} {cs : List Char} {word : Keyword}
    (h : (lexeme c cs).1 = .keyword word) :
    Lexeme.wordKind (c :: cs.take (lexeme c cs).2) = .keyword word := by
  have hsymbols : ∀ symbol ∈ Lexeme.symbols, symbol.2.isKeyword = false := by decide
  unfold lexeme at h ⊢
  split at h
  · simp at h
  next hspace =>
    split at h
    next hstart => simpa [hspace, hstart] using h
    next =>
      split at h
      · simp at h
      · split at h
        · dsimp only at h
          split at h <;> simp at h
        · split at h
          · simp at h
          · split at h
            · simp at h
            · split at h
              next hsymbol =>
                have hkind := hsymbols _ (List.mem_of_find?_eq_some hsymbol)
                dsimp only at h hkind
                simp [h, Kind.isKeyword] at hkind
              next => simp at h

/-- A keyword is spelled as its kind says. -/
theorem Token.text_of_keyword {text : String} {t : Token} {word : Keyword}
    (h : t ∈ significant text) (hk : t.kind = .keyword word) : t.text = word.text := by
  have hmem : t ∈ tokensFrom 0 text.toList := (List.mem_filter.mp h).1
  generalize (0 : Nat) = start at hmem
  generalize text.toList = cs at hmem
  fun_induction tokensFrom start cs with
  | case1 => simp at hmem
  | case2 start c cs ih =>
    rcases List.mem_cons.mp hmem with rfl | hmem
    · have hword := wordKind_of_lexeme_keyword hk
      unfold Lexeme.wordKind at hword
      split at hword
      next keyword hkeyword =>
        cases hword
        exact (Keyword.text_of_ofText? hkeyword).symm
      next => cases hword
    · exact ih hmem

def IsUnnamedFunction (text : String) (range : ByteRange) : Prop :=
  ∃ before keyword paren after, significant text = before ++ keyword :: paren :: after ∧
    keyword.kind = .keyword .functionKw ∧ paren.kind = .opens .paren ∧ range = keyword.range

/-- The name is a token of the text, or it is that of a function without a name. -/
def Name.StandsIn (text : String) (name : Name) : Prop :=
  (∃ t ∈ significant text, name = ⟨t.text, t.range⟩) ∨
    name.text = "fallback" ∧ IsUnnamedFunction text name.range

theorem Name.StandsIn.text_ne_empty {text : String} {name : Name} (h : name.StandsIn text) :
    name.text ≠ "" := by
  rcases h with ⟨t, ht, rfl⟩ | ⟨hname, -⟩
  · exact Token.text_ne_empty ht
  · simp [hname]

def Standing (text : String) (names : List Name) : Prop :=
  ∀ name ∈ names, name.StandsIn text

namespace Standing

variable {text : String} {name : Name} {names others : List Name}

theorem nil : Standing text [] := by
  simp [Standing]

theorem cons (h : name.StandsIn text) (hnames : Standing text names) :
    Standing text (name :: names) :=
  List.forall_mem_cons.mpr ⟨h, hnames⟩

theorem append (h : Standing text names) (hothers : Standing text others) :
    Standing text (names ++ others) :=
  List.forall_mem_append.mpr ⟨h, hothers⟩

end Standing

def Parameter.names (p : Parameter) : List Name := p.name.toList

def Function.names (f : Function) : List Name :=
  f.name :: (f.params.flatMap Parameter.names ++ f.returns.flatMap Parameter.names ++
    f.locals.map LocalVariable.name)

def Event.names (e : Event) : List Name :=
  e.name :: e.params.flatMap Parameter.names

def Struct.names (s : Struct) : List Name :=
  s.name :: s.fields.map Field.name

def Enum.names (e : Enum) : List Name :=
  e.name :: e.members

def Member.names : Member → List Name
  | .function f => f.names
  | .event e => e.names
  | .variable v => [v.name]
  | .struct s => s.names
  | .enum e => e.names
  | .usingFor _ => []

def Contract.names (c : Contract) : List Name :=
  c.name :: c.members.flatMap Member.names

def Item.names : Item → List Name
  | .fileImport _ => []
  | .contract c => c.names
  | .struct s => s.names
  | .enum e => e.names

namespace Cursor

variable {text : String} {c d : Cursor}

theorem In.mem_significant (h : c.In text) {t : Token} (ht : t ∈ c.rest) :
    t ∈ significant text := by
  obtain ⟨done, hdone, -⟩ := h.on
  rw [hdone]
  exact List.mem_append_right done ht

theorem In.standsIn_of_name? (h : c.In text) {name : Name} (hn : c.name? = some (name, d)) :
    name.StandsIn text := by
  obtain ⟨t, ts, hr, -, hname, -⟩ := name?_eq_some hn
  exact Or.inl ⟨t, h.mem_significant (by simp [hr]), hname⟩

theorem In.standsIn_of_declarationHead? (h : c.In text) {v : LocalVariable}
    (hv : c.declarationHead? = some (v, d)) : v.name.StandsIn text := by
  unfold declarationHead? at hv
  split at hv
  next =>
    split at hv
    next => cases hv
    next type e he =>
      obtain ⟨⟨name, f⟩, hf, hd⟩ := Option.map_eq_some_iff.mp hv
      cases hd
      have hreach := (passes_of_typeName he).reaches.trans e.reaches_skipLocation
      exact (h.reaches hreach).standsIn_of_name? hf
  next => cases hv

theorem In.standing_of_tupleHeads? (h : c.In text) {vs : List LocalVariable}
    (hvs : c.tupleHeads? = some (vs, d)) : Standing text (vs.map LocalVariable.name) := by
  fun_induction tupleHeads? c generalizing vs d with
  | case1 c _ _ ih => exact ih h.advance hvs
  | case2 c =>
    cases hvs
    exact .nil
  | case3 => cases hvs
  | case4 c v e he _ _ _ _ ih =>
    obtain ⟨⟨ws, f⟩, hf, hd⟩ := Option.map_eq_some_iff.mp hvs
    cases hd
    have hnext := h.reaches (passes_of_declarationHead? he).reaches
    exact .cons (h.standsIn_of_declarationHead? he) (ih hnext hf)
  | case5 => cases hvs

theorem In.standing_of_declarations? (h : c.In text) {vs : List LocalVariable}
    (hvs : c.declarations? = some (vs, d)) : Standing text (vs.map LocalVariable.name) := by
  unfold declarations? at hvs
  split at hvs
  next => exact h.advance.standing_of_tupleHeads? (Option.filter_eq_some_iff.mp hvs).1
  next =>
    obtain ⟨⟨v, e⟩, he, hd⟩ := Option.map_eq_some_iff.mp hvs
    cases hd
    exact .cons (h.standsIn_of_declarationHead? (Option.filter_eq_some_iff.mp he).1) .nil

theorem In.standing_declarationsAt (h : c.In text) (place : Place) :
    Standing text ((c.declarationsAt place).1.map LocalVariable.name) := by
  unfold declarationsAt declarations
  split
  · cases hvs : c.declarations? with
    | none => exact .nil
    | some found =>
      obtain ⟨vs, d⟩ := found
      exact h.standing_of_declarations? hvs
  · exact .nil

theorem In.standing_scanBody (h : c.In text) (inner : Nat) (place : Place) :
    Standing text ((c.scanBody inner place).locals.map LocalVariable.name) := by
  fun_induction scanBody inner place c with
  | case1 inner place c => exact h.standing_declarationsAt place
  | case2 inner place c => exact h.standing_declarationsAt place
  | case3 inner place c _ _ _ d _ _ tail ih =>
    have hspot := h.reaches (c.reaches_declarationsAt place)
    dsimp only
    rw [List.map_append]
    exact (h.standing_declarationsAt place).append (ih hspot.advance)

theorem In.standing_variableName (h : c.In text) : Standing text c.variableName.1.toList := by
  fun_induction variableName c with
  | case1 c name d hn _ => exact .cons (h.standsIn_of_name? hn) .nil
  | case2 c _ _ _ _ _ _ _ ih =>
    exact ih (h.reaches (c.reaches_advance.trans c.advance.reaches_skipGroup))
  | case3 c _ _ _ _ _ _ _ ih => exact ih h.advance
  | case4 => exact .nil
  | case5 => exact .nil

end Cursor

namespace Reading

variable {text : String} {r s : Reading}

theorem standing_of_expectName (h : r.cursor.In text) {role : NameRole} {name : Option Name}
    (hn : r.expectName role = (name, s)) : Standing text name.toList := by
  unfold expectName at hn
  split at hn
  next found c hc =>
    cases hn
    exact .cons (h.standsIn_of_name? hc) .nil
  next =>
    cases hn
    exact .nil

theorem standing_parameter (h : r.cursor.In text) :
    Standing text (r.parameter.1.toList.flatMap Parameter.names) := by
  unfold parameter
  split
  next => exact .nil
  next type s hs =>
    have hreach := (reaches_of_typeName hs).trans
      (s.cursor.reaches_skipLocation.trans (Cursor.reaches_skipWords ["indexed"] _))
    dsimp only
    split
    next name c hn => exact .cons ((h.reaches hreach).standsIn_of_name? hn) .nil
    next => exact .nil

theorem standing_parameters (h : r.cursor.In text) :
    Standing text (r.parameters.1.flatMap Parameter.names) := by
  fun_induction parameters r with
  | case1 => exact .nil
  | case2 r _ c hc _ _ ih =>
    have hnext := h.reaches (r.reaches_parameter.trans (Cursor.passes_of_eat? hc).reaches)
    dsimp only
    rw [List.flatMap_append]
    exact (standing_parameter h).append (ih hnext)
  | case3 r => exact standing_parameter h

theorem standing_parameterList (h : r.cursor.In text) :
    Standing text ((r.parameterList.1.getD []).flatMap Parameter.names) := by
  unfold parameterList
  split
  · exact standing_parameters (show r.advance.cursor.In text from h.advance)
  · exact .nil

theorem standing_functionHeader (h : r.cursor.In text) {returns : List Parameter}
    (hreturns : Standing text (returns.flatMap Parameter.names)) :
    Standing text ((r.functionHeader returns).1.flatMap Parameter.names) := by
  fun_induction functionHeader returns r with
  | case1 => exact hreturns
  | case2 _ r _ _ ih =>
    have hlist : r.advance.cursor.In text := h.advance
    exact ih (hlist.reaches (reaches_parameterList _)) (standing_parameterList hlist)
  | case3 _ r _ _ _ ih => exact ih (h.reaches r.cursor.reaches_skipGroup) hreturns
  | case4 => exact hreturns
  | case5 _ r _ _ _ _ _ _ ih => exact ih h.advance hreturns

theorem standing_functionBody (h : r.cursor.In text) :
    Standing text (r.functionBody.1.locals.map LocalVariable.name) := by
  have hlocals := h.advance.standing_scanBody 0 .fresh
  unfold functionBody
  dsimp only
  split <;> exact hlocals

def startsFunction (kind : Kind) : Bool :=
  kind = .keyword .functionKw || kind = .keyword .constructorKw ||
    kind = .keyword .fallbackKw || kind = .keyword .receiveKw

/-- The special functions are named by their keyword. -/
theorem standsIn_keyword (h : r.cursor.In text) {word : Keyword}
    (hk : r.kind? = some (.keyword word)) : Name.StandsIn text ⟨word.text, r.here⟩ := by
  obtain ⟨t, ts, hr, ht⟩ := Cursor.rest_of_kind? hk
  have hmem := h.mem_significant (t := t) (by simp [hr])
  have hhere : r.here = t.range := by simp [here, Cursor.here, hr]
  exact Or.inl ⟨t, hmem, by rw [Token.text_of_keyword hmem ht, hhere]⟩

theorem standsIn_unnamed (h : r.cursor.In text) (hk : r.kind? = some (.keyword .functionKw))
    (hparen : r.advance.sees (.opens .paren) = true) :
    Name.StandsIn text ⟨"fallback", r.here⟩ := by
  obtain ⟨t, ts, hr, ht⟩ := Cursor.rest_of_kind? hk
  obtain ⟨u, us, hu, hkind⟩ := Cursor.rest_of_kind? (Cursor.kind?_of_sees hparen)
  obtain ⟨done, hdone, -⟩ := h.on
  have hrest : ts = u :: us := by simpa [hr] using hu
  refine Or.inr ⟨rfl, done, t, u, us, ?_, ht, hkind, by simp [here, Cursor.here, hr]⟩
  rw [hdone, hr, hrest]

theorem standsIn_of_functionName (h : r.cursor.In text) {kind : Kind} (hk : r.kind? = some kind)
    (hstarts : startsFunction kind = true) {entry : FunctionKind × Name}
    (hn : r.functionName = (some entry, s)) : entry.2.StandsIn text := by
  unfold functionName at hn
  dsimp only at hn
  split at hn
  next hword =>
    cases hn
    exact standsIn_keyword h hword
  next hword =>
    cases hn
    exact standsIn_keyword h hword
  next hword =>
    cases hn
    exact standsIn_keyword h hword
  next hconstructor hfallback hreceive =>
    split at hn
    next hparen =>
      cases hn
      have hfunction : kind = .keyword .functionKw := by
        rw [hk] at hconstructor hfallback hreceive
        simp only [Option.some.injEq, imp_false] at hconstructor hfallback hreceive
        simpa [startsFunction, hconstructor, hfallback, hreceive] using hstarts
      exact standsIn_unnamed h (hfunction ▸ hk) hparen
    next =>
      obtain ⟨name, t, ht⟩ : ∃ name t, r.advance.expectName .function = (name, t) := ⟨_, _, rfl⟩
      have hname := standing_of_expectName h.advance ht
      rw [ht] at hn
      cases name with
      | none => cases hn
      | some name =>
        cases hn
        exact hname name (by simp)

theorem standing_function (h : r.cursor.In text) {kind : Kind} (hk : r.kind? = some kind)
    (hstarts : startsFunction kind = true) :
    Standing text (r.function.1.toList.flatMap Function.names) := by
  unfold function
  split
  next => exact .nil
  next kind name s hs =>
    have hname := standsIn_of_functionName h hk hstarts hs
    have hin := h.advance.reaches (reaches_of_functionName hs)
    split
    next => exact .nil
    next params s' hs' =>
      have hparams : Standing text (params.flatMap Parameter.names) := by
        simpa [hs'] using standing_parameterList hin
      have hafter := hin.reaches (reaches_of_parameterList hs')
      have hreturns : Standing text ((s'.functionHeader []).1.flatMap Parameter.names) :=
        standing_functionHeader hafter .nil
      have hend := hafter.reaches (s'.reaches_functionHeader [])
      dsimp only
      split
      next =>
        have hlocals := standing_functionBody hend
        simpa [Function.names, Function.locals] using
          Standing.cons hname ((hparams.append hreturns).append hlocals)
      next =>
        simpa [Function.names, Function.locals] using
          Standing.cons hname (hparams.append hreturns)

theorem standing_event (h : r.cursor.In text) :
    Standing text (r.event.1.toList.flatMap Event.names) := by
  unfold event
  split
  next => exact .nil
  next name s hs =>
    have hname := standing_of_expectName h.advance hs name (by simp)
    have hin := h.advance.reaches (reaches_of_expectName hs)
    split
    next => exact .nil
    next params s' hs' =>
      have hparams : Standing text (params.flatMap Parameter.names) := by
        simpa [hs'] using standing_parameterList hin
      simpa [Event.names] using Standing.cons hname hparams

/-- The names in the parts of a block stand in the text if those of each part do. -/
theorem standing_block {α : Type} {name : Block} {part : Reading → Option α × Reading}
    {progress : ∀ {r : Reading} {kind : Kind}, r.kind? = some kind → kind ≠ .closes .brace →
      r.Passes (part r).2} {namesOf : α → List Name}
    (hpart : ∀ {r : Reading}, r.cursor.In text → Standing text ((part r).1.toList.flatMap namesOf))
    (h : r.cursor.In text) : Standing text ((r.block name part progress).1.flatMap namesOf) := by
  intro n hn
  obtain ⟨x, hx, hn⟩ := List.mem_flatMap.mp hn
  obtain ⟨s, hs, -, hfound, -⟩ := exists_of_mem_block hx
  have hnames := hpart (h.reaches hs)
  rw [hfound] at hnames
  exact hnames n (by simpa using hn)

theorem standing_field (h : r.cursor.In text) :
    Standing text (r.field.1.toList.flatMap fun field => [field.name]) := by
  unfold field
  split
  next => exact .nil
  next type s hs =>
    have hin := h.reaches (reaches_of_typeName hs)
    split
    next => exact .nil
    next name s' hs' => exact .cons (standing_of_expectName hin hs' name (by simp)) .nil

theorem standsIn_of_blockName (h : r.cursor.In text) {role : NameRole} {name : Name}
    (hn : r.blockName role = (some name, s)) : name.StandsIn text := by
  unfold blockName at hn
  split at hn
  next => cases hn
  next found t ht =>
    split at hn
    next =>
      cases hn
      exact standing_of_expectName h ht name (by simp)
    next => cases hn

theorem standing_struct (h : r.cursor.In text) :
    Standing text (r.struct.1.toList.flatMap Struct.names) := by
  unfold struct
  split
  next => exact .nil
  next name s hs =>
    have hin := h.advance.reaches (reaches_of_blockName hs)
    have hfields : Standing text ((s.block .struct field passes_field).1.flatMap
        fun field => [field.name]) := standing_block (fun hr => standing_field hr) hin
    simpa [Struct.names, ← List.map_eq_flatMap] using
      Standing.cons (standsIn_of_blockName h.advance hs) hfields

theorem standing_enumMember (h : r.cursor.In text) : Standing text r.enumMember.1.toList := by
  unfold enumMember
  split
  next name c hn => exact .cons (h.standsIn_of_name? hn) .nil
  next => exact .nil

theorem standing_enumMembers (h : r.cursor.In text) : Standing text r.enumMembers.1 := by
  fun_induction enumMembers r with
  | case1 => exact .nil
  | case2 => exact .nil
  | case3 r _ hk _ _ _ _ ih =>
    have hnext := h.reaches ((passes_enumMember hk).reaches.trans (Cursor.reaches_advance _))
    exact (standing_enumMember h).append (ih hnext)
  | case4 r => exact standing_enumMember h

theorem standing_enum (h : r.cursor.In text) :
    Standing text (r.enum.1.toList.flatMap Enum.names) := by
  unfold enum
  split
  next => exact .nil
  next name s hs =>
    have hin := h.advance.reaches (reaches_of_blockName hs)
    simpa [Enum.names] using
      Standing.cons (standsIn_of_blockName h.advance hs) (standing_enumMembers hin)

theorem standing_stateVariable (h : r.cursor.In text) :
    Standing text (r.stateVariable.1.toList.flatMap fun v => [v.name]) := by
  unfold stateVariable
  split
  next => exact .nil
  next type s hs =>
    have hnames := (h.reaches (reaches_of_typeName hs)).standing_variableName
    split
    next => exact .nil
    next name c hc =>
      rw [hc] at hnames
      simpa using hnames

theorem toList_flatMap_names {α β : Type} (wrap : α → β) (namesOf : β → List Name)
    (found : Option α) :
    (found.map wrap).toList.flatMap namesOf = found.toList.flatMap fun x => namesOf (wrap x) := by
  cases found <;> rfl

theorem standing_member (h : r.cursor.In text) :
    Standing text (r.member.1.toList.flatMap Member.names) := by
  unfold member
  split
  next hk =>
    rw [toList_flatMap_names]
    exact standing_function h hk rfl
  next hk =>
    rw [toList_flatMap_names]
    exact standing_function h hk rfl
  next =>
    rw [toList_flatMap_names]
    exact standing_event h
  next =>
    rw [toList_flatMap_names]
    exact standing_struct h
  next =>
    rw [toList_flatMap_names]
    exact standing_enum h
  next =>
    rw [toList_flatMap_names]
    cases r.usingFor.1 <;> exact .nil
  next => exact .nil
  next =>
    split
    next hspecial =>
      rw [toList_flatMap_names]
      simp only [Bool.and_eq_true, Bool.or_eq_true] at hspecial
      rcases hspecial.1 with hword | hword
      · exact standing_function h (Cursor.kind?_of_sees hword) rfl
      · exact standing_function h (Cursor.kind?_of_sees hword) rfl
    next =>
      split
      next => exact .nil
      next =>
        rw [toList_flatMap_names]
        exact standing_stateVariable h

theorem standing_contract (h : r.cursor.In text) {c : Contract} (hc : r.contract.1 = some c) :
    Standing text c.names := by
  obtain ⟨s, named, hbody, hmembers, -, -, -, hname, -⟩ := contract_cases hc
  have hkind := (h.reaches r.reaches_atKind).advance
  obtain ⟨t, rfl, -, hreach⟩ := exists_brace_of_body? hbody
  have hin := (h.reaches hreach).advance
  refine .cons (standing_of_expectName hkind hname c.name (by simp)) ?_
  rw [hmembers]
  exact standing_block (fun hr => standing_member hr) hin

theorem standing_item (h : r.cursor.In text) {x : Item} (hx : r.item.1 = some x) :
    Standing text x.names := by
  cases x with
  | fileImport => exact .nil
  | contract c => exact standing_contract h (item_eq_contract hx).2
  | struct s => simpa [Item.names, struct_eq_of_item hx] using standing_struct h
  | enum e =>
    have he : r.enum.1 = some e := by
      unfold item at hx
      split at hx <;> simp_all
    simpa [Item.names, he] using standing_enum h

end Reading

/-- Every name of an outline stands in its text. -/
theorem standing_outline {text : String} {x : Item} (h : x ∈ (readOutline text).outline.items) :
    Standing text x.names := by
  obtain ⟨r, hwalk, hr⟩ := Reading.exists_walks_of_mem_items h
  exact Reading.standing_item ((Reading.sound_start text).cursor.reaches hwalk.reaches) hr

end SolidityCompass
