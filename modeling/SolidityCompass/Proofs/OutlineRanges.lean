import SolidityCompass.Proofs.Items
import SolidityCompass.Proofs.Ranges

/-!
# The ranges of an outline form a tree

The tree of a declaration has its name, its parameters, its members and its locals as parts, in
the order of the text. Each reader adds the tree of what it reads to the row found so far,
whatever errors it meets on the way, so the items of a text form a row from its first byte to its
last.
-/

namespace SolidityCompass

def Name.tree (name : Name) : RangeTree := .node name.range []

def Parameter.tree (p : Parameter) : RangeTree :=
  .node p.range (p.name.toList.map Name.tree)

def LocalVariable.tree (v : LocalVariable) : RangeTree :=
  .node v.range [v.name.tree]

def Function.tree (f : Function) : RangeTree :=
  .node f.range (f.name.tree ::
    (f.params.map Parameter.tree ++ f.returns.map Parameter.tree ++
      f.locals.map LocalVariable.tree))

def Event.tree (e : Event) : RangeTree :=
  .node e.range (e.name.tree :: e.params.map Parameter.tree)

def StateVariable.tree (v : StateVariable) : RangeTree :=
  .node v.range [v.name.tree]

/-- A field has no range of its own, so its name stands for it. -/
def Struct.tree (s : Struct) : RangeTree :=
  .node s.range (s.name.tree :: s.fields.map fun field => field.name.tree)

def Enum.tree (e : Enum) : RangeTree :=
  .node e.range (e.name.tree :: e.members.map Name.tree)

def Member.tree : Member → RangeTree
  | .function f => f.tree
  | .event e => e.tree
  | .variable v => v.tree
  | .struct s => s.tree
  | .enum e => e.tree
  | .usingFor u => .node u.range []

def Contract.tree (c : Contract) : RangeTree :=
  .node c.range (c.name.tree :: c.members.map Member.tree)

def Item.tree : Item → RangeTree
  | .fileImport i => .node i.range [.node i.literal []]
  | .contract c => c.tree
  | .struct s => s.tree
  | .enum e => e.tree

namespace Cursor

variable {text : String} {c d : Cursor}

/-- A name is the token that it was read from. -/
theorem In.row_of_name? (h : c.In text) {name : Name} (hn : c.name? = some (name, d)) :
    Row text c.passed d.passed [name.tree] := by
  have hpasses := passes_of_name? hn
  unfold name? at hn
  split at hn
  next => cases hn
  next t ts hr =>
    split at hn
    next =>
      cases hn
      have ht : t ∈ c.rest := by simp [hr]
      have hstop : c.here.stop = t.range.stop := by simp [here, hr]
      exact .leaf (h.passed_le_of_mem_rest ht) (hstop ▸ h.here_stop_le hpasses)
        (h.fits_of_mem_rest ht)
    next => cases hn

theorem In.row_of_declarationHead? (h : c.In text) {v : LocalVariable}
    (hv : c.declarationHead? = some (v, d)) : Row text c.passed d.passed [v.tree] := by
  unfold declarationHead? at hv
  split at hv
  next =>
    split at hv
    next => cases hv
    next type e he =>
      obtain ⟨⟨name, f⟩, hf, hd⟩ := Option.map_eq_some_iff.mp hv
      cases hd
      have htype := passes_of_typeName he
      have hspot := h.reaches (htype.reaches.trans e.reaches_skipLocation)
      have hname := hspot.row_of_name? hf
      obtain ⟨hstart, hstop, hfits, -⟩ := hname.of_mem (List.mem_singleton.mpr rfl)
      have hfirst : c.here.start ≤ name.range.start :=
        h.fits_here.start_le_stop.trans
          ((h.here_stop_le (htype.trans_reaches e.reaches_skipLocation)).trans hstart)
      exact .single h.passed_le_here hstop
        ⟨hfirst.trans hfits.start_le_stop, h.fits_here.start, hfits.stop⟩
        (.leaf hfirst (Nat.le_refl _) hfits)
  next => cases hv

theorem In.row_of_tupleHeads? (h : c.In text) {vs : List LocalVariable}
    (hvs : c.tupleHeads? = some (vs, d)) :
    Row text c.passed d.passed (vs.map LocalVariable.tree) := by
  fun_induction tupleHeads? c generalizing vs d with
  | case1 c _ _ ih => exact (ih h.advance hvs).mono_left h.passed_le_advance
  | case2 c =>
    cases hvs
    exact .nil h.passed_le_advance
  | case3 => cases hvs
  | case4 c v e he _ _ _ _ ih =>
    obtain ⟨⟨ws, f⟩, hf, hd⟩ := Option.map_eq_some_iff.mp hvs
    cases hd
    have hnext := h.reaches (passes_of_declarationHead? he).reaches
    exact (h.row_of_declarationHead? he).append (ih hnext hf)
  | case5 => cases hvs

theorem In.row_declarationsAt (h : c.In text) (place : Place) :
    Row text c.passed (c.declarationsAt place).2.passed
      ((c.declarationsAt place).1.map LocalVariable.tree) := by
  unfold declarationsAt
  split
  next =>
    unfold declarations
    cases hvs : c.declarations? with
    | none => exact .nil (Nat.le_refl _)
    | some found =>
      obtain ⟨vs, d⟩ := found
      unfold declarations? at hvs
      split at hvs
      next =>
        have hheads := (Option.filter_eq_some_iff.mp hvs).1
        exact (h.advance.row_of_tupleHeads? hheads).mono_left h.passed_le_advance
      next =>
        obtain ⟨⟨v, e⟩, he, hd⟩ := Option.map_eq_some_iff.mp hvs
        cases hd
        exact h.row_of_declarationHead? (Option.filter_eq_some_iff.mp he).1
  next => exact .nil (Nat.le_refl _)

theorem In.row_scanBody (h : c.In text) (inner : Nat) (place : Place) :
    Row text c.passed (c.scanBody inner place).cursor.passed
      ((c.scanBody inner place).locals.map LocalVariable.tree) := by
  fun_induction scanBody inner place c with
  | case1 inner place c => exact h.row_declarationsAt place
  | case2 inner place c _ _ _ d _ =>
    have hspot := h.reaches (c.reaches_declarationsAt place)
    exact (h.row_declarationsAt place).mono_right hspot.passed_le_advance
  | case3 inner place c _ _ _ d _ _ tail ih =>
    have hspot := h.reaches (c.reaches_declarationsAt place)
    dsimp only
    rw [List.map_append]
    exact ((h.row_declarationsAt place).mono_right hspot.passed_le_advance).append
      (ih hspot.advance)

/-- The walk over a body stops behind its closing brace, or where no token is left. -/
theorem scanBody_end (inner : Nat) (place : Place) (c : Cursor) :
    (c.scanBody inner place).closed = some (c.scanBody inner place).cursor.passed ∨
      (c.scanBody inner place).closed = none ∧ (c.scanBody inner place).cursor.rest = [] := by
  fun_induction scanBody inner place c with
  | case1 inner place c hr => exact Or.inr ⟨rfl, hr⟩
  | case2 inner place c t ts hr d _ => exact Or.inl (by simp [d, Cursor.advance, hr])
  | case3 inner place c _ _ _ d _ _ tail ih => exact ih

theorem In.row_variableName (h : c.In text) :
    Row text c.passed c.variableName.2.passed (c.variableName.1.toList.map Name.tree) := by
  fun_induction variableName c with
  | case1 c name d hn _ => exact h.row_of_name? hn
  | case2 c _ _ _ _ _ _ _ ih =>
    have hreach := c.reaches_advance.trans c.advance.reaches_skipGroup
    exact (ih (h.reaches hreach)).mono_left (h.passed_le hreach)
  | case3 c _ _ _ _ _ _ _ ih => exact (ih h.advance).mono_left h.passed_le_advance
  | case4 c => exact .nil (Nat.le_refl _)
  | case5 c => exact .nil (Nat.le_refl _)

end Cursor

namespace Reading

variable {text : String} {lo : Nat} {xs : List RangeTree} {r s : Reading}

namespace Found

theorem name? (h : Found text lo xs r) {name : Name} {c : Cursor}
    (hn : r.cursor.name? = some (name, c)) : Found text lo (xs ++ [name.tree]) (r.goTo c) :=
  h.trans ⟨(h.goTo (Cursor.passes_of_name? hn).reaches).sound, h.sound.cursor.row_of_name? hn⟩

theorem expectName (h : Found text lo xs r) {role : NameRole} {name : Option Name}
    (hn : r.expectName role = (name, s)) :
    Found text lo (xs ++ name.toList.map Name.tree) s := by
  unfold Reading.expectName at hn
  split at hn
  next n c hc =>
    cases hn
    exact h.name? hc
  next =>
    cases hn
    simpa using h.report _

theorem typeName (h : Found text lo xs r) {type : Option TypeName} (ht : r.typeName = (type, s)) :
    Found text lo xs s := by
  have hreach := reaches_of_typeName ht
  cases ht
  exact h.goTo hreach

end Found

/-- Behind the type that begins a declaration nothing is found yet. -/
theorem Sound.foundTyped (h : r.Sound text) {type : TypeName} (ht : r.typeName = (some type, s)) :
    Found text r.here.start [] s := by
  refine ⟨(h.found.typeName ht).sound, .nil ?_⟩
  exact h.cursor.fits_here.start_le_stop.trans (h.cursor.here_stop_le (passes_of_typeName ht))

theorem found_parameter (h : r.Sound text) :
    Found text r.cursor.passed (r.parameter.1.toList.map Parameter.tree) r.parameter.2 := by
  unfold parameter
  split
  next s hs =>
    have hfault := (h.found.typeName hs).report .expectedParameterType
    exact hfault.goTo (Cursor.reaches_skipUntil _ _)
  next type s hs =>
    have hreach := s.cursor.reaches_skipLocation.trans (Cursor.reaches_skipWords ["indexed"] _)
    have htype := (h.foundTyped hs).goTo hreach
    dsimp only
    split
    next name c hn => exact (htype.name? hn).close h
    next => exact htype.close h

theorem found_parameters (h : r.Sound text) :
    Found text r.cursor.passed (r.parameters.1.map Parameter.tree) r.parameters.2 := by
  fun_induction parameters r with
  | case1 r => exact h.found
  | case2 r _ c hc _ _ ih =>
    have hfirst := (found_parameter h).goTo (Cursor.passes_of_eat? hc).reaches
    dsimp only
    rw [List.map_append]
    exact hfirst.trans (ih hfirst.sound)
  | case3 r => exact found_parameter h

theorem Found.parameterList (h : Found text lo xs r) {params : Option (List Parameter)}
    (hp : r.parameterList = (params, s)) :
    Found text lo (xs ++ (params.getD []).map Parameter.tree) s := by
  unfold Reading.parameterList at hp
  split at hp
  next =>
    cases hp
    exact (h.advance.trans (found_parameters h.advance.sound)).expect _
  next =>
    cases hp
    simpa using h.report _

/-- The last list of return parameters replaces those before it. -/
theorem Found.functionHeader {returns : List Parameter}
    (h : Found text lo (xs ++ returns.map Parameter.tree) r) :
    Found text lo (xs ++ (r.functionHeader returns).1.map Parameter.tree)
      (r.functionHeader returns).2 := by
  fun_induction Reading.functionHeader returns r with
  | case1 returns r => exact h
  | case2 returns r _ _ ih =>
    apply ih
    exact h.of_append_left.advance.parameterList rfl
  | case3 returns r _ _ _ ih => exact ih (h.goTo r.cursor.reaches_skipGroup)
  | case4 returns r => exact h
  | case5 returns r _ _ _ _ _ _ ih => exact ih h.advance

theorem functionBody_fst (r : Reading) :
    r.functionBody.1 =
      ⟨⟨r.here.start, (r.cursor.advance.scanBody 0 .fresh).closed.getD r.cursor.textEnd⟩,
        (r.cursor.advance.scanBody 0 .fresh).locals⟩ := by
  unfold functionBody
  dsimp only
  split
  next hclosed => rw [hclosed, Option.getD_some]
  next hopen => rw [hopen, Option.getD_none]

/-- A body ends where reading stands behind it, or it is not closed: then no token is left, and
the body runs to the end of the text. -/
theorem functionBody_range (r : Reading) :
    r.functionBody.1.range = r.functionBody.2.rangeFrom r.here.start ∨
      r.functionBody.1.range = ⟨r.here.start, r.cursor.textEnd⟩ ∧
        r.functionBody.2.cursor.rest = [] := by
  unfold functionBody
  dsimp only
  rcases Cursor.scanBody_end 0 .fresh r.cursor.advance with hclosed | ⟨hopen, hrest⟩
  · rw [hclosed]
    exact Or.inl rfl
  · rw [hopen]
    exact Or.inr ⟨rfl, hrest⟩

theorem passes_functionBody (hk : r.sees (.opens .brace) = true) : r.Passes r.functionBody.2 := by
  refine (Cursor.passes_advance_of_sees hk).trans_reaches ?_
  unfold functionBody
  dsimp only
  split <;> exact Cursor.reaches_scanBody 0 .fresh _

theorem fits_functionBody (h : r.cursor.In text) (hk : r.sees (.opens .brace) = true) :
    r.functionBody.1.range.Fits text := by
  have hpasses := passes_functionBody hk
  have hstop := h.fits_here.start_le_stop.trans (h.here_stop_le hpasses)
  rcases r.functionBody_range with hclosed | ⟨hopen, -⟩
  · rw [hclosed]
    exact ⟨hstop, h.fits_here.start, (h.reaches hpasses.reaches).isBoundary_passed⟩
  · rw [hopen, h.textEnd]
    exact ⟨h.fits_here.start.le, h.fits_here.start, isBoundary_byteLength text⟩

theorem Found.functionBody (h : Found text lo xs r) (hk : r.sees (.opens .brace) = true) :
    Found text lo (xs ++ r.functionBody.1.locals.map LocalVariable.tree) r.functionBody.2 := by
  have hrange := fits_functionBody h.sound.cursor hk
  have hreach := r.cursor.reaches_advance.trans (Cursor.reaches_scanBody 0 .fresh _)
  have hmoved := h.goTo hreach
  have hrow := (h.sound.cursor.advance.row_scanBody 0 .fresh).mono_left
    h.sound.cursor.passed_le_advance
  have hlocals := h.trans ⟨hmoved.sound, hrow⟩
  unfold Reading.functionBody at hrange ⊢
  dsimp only at hrange ⊢
  split
  next => exact hlocals
  next hopen =>
    rw [hopen] at hrange
    exact hlocals.reportAt _ hrange

theorem found_functionName (h : r.Sound text) {kind : Kind} (hk : r.kind? = some kind)
    {found : Option (FunctionKind × Name)} (hn : r.functionName = (found, s)) :
    Found text r.here.start (found.toList.map fun entry => entry.2.tree) s := by
  have hfirst := h.foundFirst hk
  -- The special functions are named by their keyword.
  have hkeyword : Found text r.here.start [.node r.here []] r.advance := by
    have hpasses : r.cursor.Passes r.cursor.advance := Cursor.passes_advance_of_kind? hk
    exact ⟨hfirst.sound, .leaf (Nat.le_refl _) (h.cursor.here_stop_le hpasses)
      h.cursor.fits_here⟩
  unfold functionName at hn
  dsimp only at hn
  split at hn
  · cases hn
    exact hkeyword
  · cases hn
    exact hkeyword
  · cases hn
    exact hkeyword
  · split at hn
    · cases hn
      exact hkeyword
    · obtain ⟨name, t, ht⟩ : ∃ name t, r.advance.expectName .function = (name, t) := ⟨_, _, rfl⟩
      rw [ht] at hn
      cases hn
      have hname := hfirst.expectName ht
      cases name <;> exact hname

theorem found_function (h : r.Sound text) {kind : Kind} (hk : r.kind? = some kind) :
    Found text r.cursor.passed (r.function.1.toList.map Function.tree) r.function.2 := by
  unfold function
  split
  next s hs => exact (found_functionName h hk hs).skipItem.giveUp h
  next kind name s hs =>
    have hname := found_functionName h hk hs
    split
    next s' hs' => exact (hname.parameterList hs').skipItem.giveUp h
    next params s' hs' =>
      have hparams := hname.parameterList hs'
      have hheader : Found text r.here.start _ (s'.functionHeader []).2 :=
        Found.functionHeader (by simpa using hparams)
      dsimp only
      split
      next hb =>
        have hbody := (hheader.functionBody hb).close h
        simpa [Function.tree, Function.locals] using hbody
      next =>
        have hend := (hheader.expect .semicolon).close h
        simpa [Function.tree, Function.locals] using hend

theorem found_event (h : r.Sound text) {kind : Kind} (hk : r.kind? = some kind) :
    Found text r.cursor.passed (r.event.1.toList.map Event.tree) r.event.2 := by
  have hfirst := h.foundFirst hk
  unfold event
  split
  next s hs => exact (hfirst.expectName hs).skipItem.giveUp h
  next name s hs =>
    have hname := hfirst.expectName hs
    split
    next s' hs' => exact (hname.parameterList hs').skipItem.giveUp h
    next params s' hs' =>
      have hparams := hname.parameterList hs'
      have hend := (hparams.goTo (s'.cursor.reaches_skipWord "anonymous")).expect .semicolon
      exact hend.close h

/-- The parts of a block form a row if each part does. -/
theorem found_block {α : Type} {name : Block} {part : Reading → Option α × Reading}
    {progress : ∀ {r : Reading} {kind : Kind}, r.kind? = some kind → kind ≠ .closes .brace →
      r.Passes (part r).2} {tree : α → RangeTree}
    (hpart : ∀ {r : Reading} {kind : Kind}, r.Sound text → r.kind? = some kind →
      Found text r.cursor.passed ((part r).1.toList.map tree) (part r).2) (h : r.Sound text) :
    Found text r.cursor.passed ((r.block name part progress).1.map tree)
      (r.block name part progress).2 := by
  fun_induction block name part progress r with
  | case1 r => exact h.found.report _
  | case2 r => exact h.found.advance
  | case3 r _ hk _ _ _ ih =>
    have hfirst := hpart h hk
    dsimp only
    rw [List.map_append]
    exact hfirst.trans (ih hfirst.sound)

theorem found_field (h : r.Sound text) :
    Found text r.cursor.passed (r.field.1.toList.map fun field => field.name.tree) r.field.2 := by
  unfold field
  split
  next s hs => exact (h.found.typeName hs).recover _
  next type s hs =>
    have htype := h.found.typeName hs
    split
    next s' hs' => exact (htype.expectName hs').skipItem
    next name s' hs' => exact (htype.expectName hs').expect _

theorem Found.blockName (h : Found text lo xs r) {role : NameRole} {name : Option Name}
    (hn : r.blockName role = (name, s)) : Found text lo (xs ++ name.toList.map Name.tree) s := by
  unfold Reading.blockName at hn
  split at hn
  next s hs =>
    cases hn
    exact (h.expectName hs).skipItem
  next name s hs =>
    have hname := h.expectName hs
    split at hn
    next =>
      cases hn
      exact hname.advance
    next =>
      cases hn
      simpa using (hname.recover _).of_append_left

theorem found_struct (h : r.Sound text) {kind : Kind} (hk : r.kind? = some kind) :
    Found text r.cursor.passed (r.struct.1.toList.map Struct.tree) r.struct.2 := by
  have hfirst := h.foundFirst hk
  unfold struct
  split
  next s hs => exact (hfirst.blockName hs).giveUp h
  next name s hs =>
    have hname := hfirst.blockName hs
    exact (hname.trans (found_block (fun hr _ => found_field hr) hname.sound)).close h

theorem found_enumMember (h : r.Sound text) :
    Found text r.cursor.passed (r.enumMember.1.toList.map Name.tree) r.enumMember.2 := by
  unfold enumMember
  split
  next name c hn => exact h.found.name? hn
  next => exact (h.found.report _).advance

theorem found_enumMembers (h : r.Sound text) :
    Found text r.cursor.passed (r.enumMembers.1.map Name.tree) r.enumMembers.2 := by
  fun_induction enumMembers r with
  | case1 r => exact h.found.report _
  | case2 r => exact h.found.advance
  | case3 r _ _ _ _ _ _ ih =>
    have hfirst := (found_enumMember h).advance
    dsimp only
    rw [List.map_append]
    exact hfirst.trans (ih hfirst.sound)
  | case4 r => exact (found_enumMember h).expect _

theorem found_enum (h : r.Sound text) {kind : Kind} (hk : r.kind? = some kind) :
    Found text r.cursor.passed (r.enum.1.toList.map Enum.tree) r.enum.2 := by
  have hfirst := h.foundFirst hk
  unfold enum
  split
  next s hs => exact (hfirst.blockName hs).giveUp h
  next name s hs =>
    have hname := hfirst.blockName hs
    exact (hname.trans (found_enumMembers hname.sound)).close h

theorem Found.usingEnd (h : Found text lo xs r) : Found text lo xs r.usingEnd :=
  (h.goTo (r.cursor.reaches_skipWord "global")).expect .semicolon

theorem found_usingFor (h : r.Sound text) {kind : Kind} (hk : r.kind? = some kind) :
    Found text r.cursor.passed (r.usingFor.1.toList.map fun u => .node u.range [])
      r.usingFor.2 := by
  have hfirst := h.foundFirst hk
  unfold usingFor
  split
  next => exact (hfirst.goTo (Cursor.reaches_skipGroup _)).skipItem.giveUp h
  next =>
    split
    next => exact (hfirst.recover _).giveUp h
    next library c hc =>
      have hpath := hfirst.goTo (Cursor.passes_of_path? hc).reaches
      split
      next => exact (hpath.recover _).giveUp h
      next d hd =>
        have hfor := hpath.goTo (Cursor.passes_of_eat? hd).reaches
        split
        next => exact (hfor.goTo d.reaches_advance).usingEnd.close h
        next =>
          split
          next s hs => exact ((hfor.typeName hs).recover _).giveUp h
          next target s hs => exact (hfor.typeName hs).usingEnd.close h

theorem found_stateVariable (h : r.Sound text) :
    Found text r.cursor.passed (r.stateVariable.1.toList.map StateVariable.tree)
      r.stateVariable.2 := by
  unfold stateVariable
  split
  next s hs => exact (h.found.typeName hs).recover _
  next type s hs =>
    have htype := h.foundTyped hs
    have hreach := s.cursor.reaches_variableName
    have hrow := htype.sound.cursor.row_variableName
    split
    next c hc =>
      rw [hc] at hreach
      exact ((htype.goTo hreach).recover _).giveUp h
    next name c hc =>
      rw [hc] at hreach hrow
      have hname := htype.trans ⟨(htype.goTo hreach).sound, hrow⟩
      exact hname.skipItem.close h

theorem toList_map_tree {α β : Type} (wrap : α → β) (tree : β → RangeTree) (found : Option α) :
    (found.map wrap).toList.map tree = found.toList.map fun x => tree (wrap x) := by
  cases found <;> rfl

theorem found_member (h : r.Sound text) {kind : Kind} (hk : r.kind? = some kind) :
    Found text r.cursor.passed (r.member.1.toList.map Member.tree) r.member.2 := by
  unfold member
  split
  · rw [toList_map_tree]
    exact found_function h hk
  · rw [toList_map_tree]
    exact found_function h hk
  · rw [toList_map_tree]
    exact found_event h hk
  · rw [toList_map_tree]
    exact found_struct h hk
  · rw [toList_map_tree]
    exact found_enum h hk
  · rw [toList_map_tree]
    exact found_usingFor h hk
  · exact h.found.advance
  · split
    · rw [toList_map_tree]
      exact found_function h hk
    · split
      · exact h.found.skipItem
      · rw [toList_map_tree]
        exact found_stateVariable h

theorem Found.bases (h : Found text lo xs r) : Found text lo xs r.bases.2 := by
  have hgroup (c : Cursor) : c.Reaches (if c.sees (.opens .paren) then c.skipGroup.2 else c) := by
    split
    · exact c.reaches_skipGroup
    · exact .refl c
  fun_induction Reading.bases r with
  | case1 r => exact h.report _
  | case2 r _ c hc _ _ _ _ ih =>
    have hreach := (Cursor.passes_of_path? hc).reaches.trans (hgroup c)
    exact ih (h.goTo (hreach.trans (Cursor.reaches_advance _)))
  | case3 r _ c hc => exact h.goTo ((Cursor.passes_of_path? hc).reaches.trans (hgroup c))

theorem Found.baseList (h : Found text lo xs r) : Found text lo xs r.baseList.2 := by
  unfold Reading.baseList
  split
  · exact h.advance.bases
  · exact h

theorem Found.enterBody (h : Found text lo xs r) {entered : Bool}
    (he : r.enterBody = (entered, s)) : Found text lo xs s := by
  unfold Reading.enterBody at he
  split at he
  next =>
    cases he
    exact h.advance
  next =>
    have hmoved := (h.report .expectedContractBody).goTo (Cursor.reaches_skipUntil opensBody _)
    dsimp only at he
    split at he
    · cases he
      exact hmoved.advance
    · cases he
      exact hmoved.skipKind _

/-- Reads a contract that starts at `r` and whose kind stands at `s`. -/
theorem found_contractFrom (h : r.Sound text) (hs : Found text r.cursor.passed [] s)
    (hfirst : Found text r.here.start [] s.advance) (isAbstract : Bool) :
    Found text r.cursor.passed
      ((s.contractFrom r.here.start isAbstract).1.toList.map Contract.tree)
      (s.contractFrom r.here.start isAbstract).2 := by
  unfold contractFrom
  split
  next => exact hs.recover _
  next kind hkind =>
    split
    next t ht => exact (hfirst.expectName ht).skipItem.giveUp h
    next name t ht =>
      have hbases := (hfirst.expectName ht).baseList
      dsimp only
      split
      next u hu => exact (hbases.enterBody hu).giveUp h
      next u hu =>
        have hbody := hbases.enterBody hu
        exact (hbody.trans (found_block (fun hr hk => found_member hr hk) hbody.sound)).close h

theorem found_contract (h : r.Sound text) {kind : Kind} (hk : r.kind? = some kind) :
    Found text r.cursor.passed (r.contract.1.toList.map Contract.tree) r.contract.2 := by
  have hfirst := h.foundFirst hk
  unfold contract
  split
  · exact found_contractFrom h h.found.advance hfirst.advance true
  · exact found_contractFrom h h.found hfirst false

/-- The tokens that a cursor passes lie in front of where it comes to stand. -/
theorem stop_le_skip {c : Cursor} (h : c.In text) {n : Nat} {t : Token}
    (ht : t ∈ c.rest.take n) : t.range.stop ≤ (c.skip n).passed := by
  induction n generalizing c with
  | zero => simp at ht
  | succ n ih =>
    cases hr : c.rest with
    | nil => simp [hr] at ht
    | cons first rest =>
      rw [hr, List.take_succ_cons] at ht
      rcases List.mem_cons.mp ht with rfl | ht
      · have hstop : c.advance.passed = t.range.stop := by simp [Cursor.advance, hr]
        exact hstop ▸ h.advance.passed_le (Cursor.reaches_skip _ n)
      · exact ih h.advance (by simpa [hr] using ht)

theorem found_fileImport (h : r.Sound text) {kind : Kind} (hk : r.kind? = some kind) :
    Found text r.cursor.passed (r.fileImport.1.toList.map fun i => Item.tree (.fileImport i))
      r.fileImport.2 := by
  have hfirst := h.foundFirst hk
  have hend := hfirst.goTo (Cursor.reaches_skipUntil endsImport _)
  unfold fileImport
  dsimp only
  split
  next literal hliteral =>
    have htaken := List.mem_of_find?_eq_some hliteral
    have hinit := List.takeWhile_prefix (l := r.cursor.advance.rest) fun t => !endsImport t.kind
    have hin := hfirst.sound.cursor
    have hstart := hfirst.row.le.trans (hin.passed_le_of_mem_rest (hinit.mem htaken))
    have hstop := stop_le_skip hin (List.prefix_iff_eq_take.mp hinit ▸ htaken)
    have hleaf := Row.leaf hstart hstop (hin.fits_of_mem_rest (hinit.mem htaken))
    exact (Found.close h ⟨hend.sound, hleaf⟩).expect _
  next =>
    have hrange := hend.fits_rangeFrom h.cursor.fits_here.start
    exact ((hend.expect .semicolon).reportAt _ hrange).giveUp h

theorem found_item (h : r.Sound text) {kind : Kind} (hk : r.kind? = some kind) :
    Found text r.cursor.passed (r.item.1.toList.map Item.tree) r.item.2 := by
  unfold item
  split
  · rw [toList_map_tree]
    exact found_fileImport h hk
  · rw [toList_map_tree]
    exact found_contract h hk
  · rw [toList_map_tree]
    exact found_contract h hk
  · rw [toList_map_tree]
    exact found_contract h hk
  · rw [toList_map_tree]
    exact found_contract h hk
  · rw [toList_map_tree]
    exact found_struct h hk
  · rw [toList_map_tree]
    exact found_enum h hk
  · exact (h.found.report _).advance
  · exact h.found.skipItem

theorem found_items (h : r.Sound text) :
    Found text r.cursor.passed (r.items.1.map Item.tree) r.items.2 := by
  fun_induction items r with
  | case1 r => exact h.found
  | case2 r _ hk _ _ ih =>
    have hfirst := found_item h hk
    dsimp only
    rw [List.map_append]
    exact hfirst.trans (ih hfirst.sound)

theorem sound_start (text : String) : (start text).Sound text := by
  refine ⟨⟨Cursor.on_start text, rfl⟩, ?_⟩
  intro e he
  obtain ⟨t, ht, rfl⟩ := List.mem_map.mp (List.mem_reverse.mp he)
  exact fits_of_mem_tokenize (List.mem_filter.mp ht).1

/-- The parts of a block were read one by one on the way through it, and the block goes on behind
each of them. -/
theorem exists_of_mem_block {α : Type} {name : Block} {part : Reading → Option α × Reading}
    {progress : ∀ {r : Reading} {kind : Kind}, r.kind? = some kind → kind ≠ .closes .brace →
      r.Passes (part r).2} {x : α} (h : x ∈ (r.block name part progress).1) :
    ∃ s, r.Reaches s ∧ s.cursor.rest ≠ [] ∧ (part s).1 = some x ∧
      (∃ front, (r.block name part progress).1 =
        front ++ x :: ((part s).2.block name part progress).1) ∧
      (r.block name part progress).2 = ((part s).2.block name part progress).2 := by
  fun_induction block name part progress r with
  | case1 => simp at h
  | case2 => simp at h
  | case3 r kind hk hne _ tail ih =>
    rcases List.mem_append.mp h with hx | hx
    · have hfound := Option.mem_toList.mp hx
      refine ⟨r, .refl r.cursor, Cursor.rest_ne_nil_of_kind? hk, hfound, ⟨[], ?_⟩, rfl⟩
      rw [Option.mem_def.mp hfound]
      rfl
    · obtain ⟨s, hs, hrest, hfound, ⟨front, hfront⟩, hend⟩ := ih hx
      refine ⟨s, (progress hk hne).reaches.trans hs, hrest, hfound, ?_, hend⟩
      exact ⟨(part r).1.toList ++ front, by rw [List.append_assoc, ← hfront]⟩

theorem function_eq_of_member {f : Function} (h : r.member.1 = some (.function f)) :
    r.function.1 = some f ∧ r.member.2 = r.function.2 := by
  unfold member at h ⊢
  split at h <;> simp_all
  split at h <;> simp_all
  split at h <;> simp_all

/-- A function with a body ends where the walk over its body stops. -/
theorem function_body_cases {f : Function} {b : Body} (h : r.function.1 = some f)
    (hb : f.body = some b) :
    ∃ s, r.advance.Reaches s ∧ s.sees (.opens .brace) = true ∧ b = s.functionBody.1 ∧
      f.range = s.functionBody.2.rangeFrom r.here.start ∧ r.function.2 = s.functionBody.2 := by
  unfold function at h
  split at h
  next => cases h
  next kind name s hs =>
    have hname := reaches_of_functionName hs
    split at h
    next => cases h
    next params s' hs' =>
      have hheader := hname.trans
        ((reaches_of_parameterList hs').trans (s'.reaches_functionHeader []))
      dsimp only at h
      split at h
      next hbrace =>
        cases h
        cases hb
        exact ⟨_, hheader, hbrace, rfl, rfl, by simp [function, hs, hs', hbrace]⟩
      next =>
        cases h
        cases hb

/-- A member of the outline was read at some place of the text, and its contract goes on behind
it. -/
theorem exists_member_of_mem {c : Contract} {m : Member}
    (hc : c ∈ (readOutline text).outline.contracts) (hm : m ∈ c.members) :
    ∃ r, (start text).Reaches r ∧ r.cursor.rest ≠ [] ∧ r.member.1 = some m ∧
      c.ReadsOn m r.member.2 := by
  obtain ⟨r, hwalk, hr⟩ := exists_walks_of_mem_contracts hc
  obtain ⟨s, -, hbody, hmembers, hend, hstop, -⟩ := contract_cases hr
  obtain ⟨t, rfl, -, hreach⟩ := exists_brace_of_body? hbody
  rw [hmembers] at hm
  obtain ⟨u, hu, hne, hmember, hfront, hsnd⟩ := exists_of_mem_block hm
  have hstart := hwalk.reaches.trans (hreach.trans t.cursor.reaches_advance)
  refine ⟨u, hstart.trans hu, hne, hmember, ?_, ?_⟩
  · rw [hmembers]
    exact hfront
  · rw [hstop, hend, hsnd]

/-- A function of the outline was read at some place of the text. -/
theorem exists_function_of_mem {c : Contract} {f : Function}
    (hc : c ∈ (readOutline text).outline.contracts) (hf : .function f ∈ c.members) :
    ∃ r, (start text).Reaches r ∧ r.cursor.rest ≠ [] ∧ r.function.1 = some f := by
  obtain ⟨r, hr, hne, hmember, -⟩ := exists_member_of_mem hc hf
  exact ⟨r, hr, hne, (function_eq_of_member hmember).1⟩

end Reading

theorem readOutline_row (text : String) :
    Row text 0 (byteLength text.toList) ((readOutline text).outline.items.map Item.tree) := by
  have hfound := Reading.found_items (Reading.sound_start text)
  exact hfound.row.mono_right hfound.sound.cursor.isBoundary_passed.le

/-- The items of a text form a row from its first byte to its last, and so do, between the ends of
a declaration, its parts. All errors and the bodies of all functions lie in the text. -/
theorem readOutline_ranges (text : String) :
    Row text 0 (byteLength text.toList) ((readOutline text).outline.items.map Item.tree) ∧
      (∀ e ∈ (readOutline text).errors, e.range.Fits text) ∧
      ∀ c ∈ (readOutline text).outline.contracts, ∀ f, .function f ∈ c.members →
        ∀ b, f.body = some b → b.range.Fits text := by
  have hstart := Reading.sound_start text
  refine ⟨readOutline_row text, ?_, ?_⟩
  · intro e he
    exact (Reading.found_items hstart).sound.faults e (List.mem_reverse.mp he)
  · intro c hc f hf b hb
    obtain ⟨r, hr, -, hfunction⟩ := Reading.exists_function_of_mem hc hf
    obtain ⟨s, hs, hbrace, rfl, -⟩ := Reading.function_body_cases hfunction hb
    have hin := hstart.cursor.reaches (hr.trans (r.cursor.reaches_advance.trans hs))
    exact Reading.fits_functionBody hin hbrace

end SolidityCompass
