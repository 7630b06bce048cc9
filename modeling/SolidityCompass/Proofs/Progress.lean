import SolidityCompass.Proofs.Calls
import SolidityCompass.Proofs.Faults
import SolidityCompass.Proofs.Names

/-!
# Readers make progress

A call starts where the call that makes it has come to, and either a token was consumed on the way
or its reader is simpler than the one that called it. `Call.Leads` says so of a call and one that it
makes. Readers that step over their first token without looking at it are called only in front of
the token that they expect.
-/

namespace SolidityCompass

/-- What a reader that steps over its first token without a look takes that token to be. -/
def Reader.first? : Reader → Option (Kind → Bool)
  | .fileImport => some (· = .keyword .importKw)
  | .function => some Reading.startsFunction
  | .functionBody => some (· = .opens .brace)
  | .tuple => some (· = .opens .paren)
  | .event => some (· = .keyword .eventKw)
  | .struct => some (· = .keyword .structKw)
  | .enum => some (· = .keyword .enumKw)
  | .usingFor => some (· = .keyword .usingKw)
  | .mappingType => some (· = .keyword .mappingKw)
  | .functionType => some (· = .keyword .functionKw)
  | _ => none

/-- A reader calls readers of smaller rank, if no token was consumed before. -/
def Reader.rank : Reader → Nat
  | .items => 14
  | .item => 13
  | .contract => 12
  | .contractBody => 11
  | .member => 10
  | .fileImport | .function | .event | .struct | .enum | .usingFor | .stateVariable => 9
  | .functionBody => 8
  | .walk _ _ => 7
  | .functionHeader | .declarations => 6
  | .parameterList | .tuple => 5
  | .parameters | .fields | .tupleHeads => 4
  | .parameter | .field | .declarationHead => 3
  | .typeName => 2
  | .mappingType | .functionType | .arraySuffixes _ | .variableName | .bases | .enumMembers => 1
  | .path | .skipGroup | .skipItem => 0

def Reader.isAboveAt (f g : Reader) (kind : Kind) : Bool :=
  g.first?.all (fun p => p kind) && decide (g.rank < f.rank)

def Reader.isAbove (f g : Reader) : Bool :=
  g.first?.isNone && decide (g.rank < f.rank)

namespace Cursor

theorem reaches_mappingType (c : Cursor) : c.Reaches c.mappingType.2 := by
  unfold mappingType
  split
  next => exact c.reaches_advance
  next c₁ hopen =>
    have hin := c.reaches_advance.trans (passes_of_eat? hopen).reaches
    have hkey := hin.trans c₁.reaches_typeName
    split
    next d hd => rwa [hd] at hkey
    next key d hd =>
      rw [hd] at hkey
      have hname := hkey.trans (d.reaches_skipNameBefore .fatArrow)
      split
      next => exact hname
      next c₂ harrow =>
        have hvalue := (hname.trans (passes_of_eat? harrow).reaches).trans c₂.reaches_typeName
        split
        next e he => rwa [he] at hvalue
        next value e he =>
          rw [he] at hvalue
          have hlast := hvalue.trans (e.reaches_skipNameBefore (.closes .paren))
          split
          next => exact hlast
          next f hclose => exact hlast.trans (passes_of_eat? hclose).reaches

theorem reaches_baseType (c : Cursor) : c.Reaches c.baseType.2 := by
  unfold baseType
  split
  next => exact c.reaches_mappingType
  next => exact c.reaches_advance.trans c.reaches_functionType
  next =>
    split
    next => exact .refl c
    next type d hnamed => exact (passes_of_namedType? hnamed).reaches

theorem reaches_afterPath (c : Cursor) : c.Reaches ((c.path?.map Prod.snd).getD c) := by
  cases hpath : c.path? with
  | none => exact .refl c
  | some found =>
    obtain ⟨path, d⟩ := found
    exact (passes_of_path? hpath).reaches

end Cursor

theorem Reading.reaches_tryDeclarations (r : Reading) : r.Reaches r.tryDeclarations.2 := by
  cases hread : r.cursor.declarations? with
  | none => rw [tryDeclarations_of_none hread]
  | some found =>
    have hdecl := Cursor.declarations?_eq_some_iff.mp (show _ = some (found.1, found.2) from hread)
    rw [tryDeclarations_of_declaration hdecl]
    exact hdecl.passes.reaches

namespace Call

open Reading

/-- A call does not move backwards. -/
theorem reaches_exit (x : Call) : x.entry.Reaches x.exit := by
  obtain ⟨f, r⟩ := x
  have hadvance := r.cursor.reaches_advance
  cases f with
  | items => exact r.runs_items.reaches
  | item => exact r.runs_item.reaches
  | fileImport => exact hadvance.trans r.reaches_fileImport
  | contract => exact r.runs_contract.reaches
  | bases => exact r.reaches_bases
  | contractBody => exact reaches_block _ _ _ r
  | member => exact r.runs_member.reaches
  | stateVariable => exact r.runs_stateVariable.reaches
  | variableName => exact r.cursor.reaches_variableName
  | function => exact hadvance.trans r.reaches_function
  | functionHeader => exact r.reaches_functionHeader []
  | parameterList => exact r.reaches_parameterList
  | parameters => exact r.reaches_parameters
  | parameter => exact r.reaches_parameter
  | functionBody => exact r.reaches_functionBody
  | walk inner place => exact r.cursor.reaches_scanBody inner place
  | declarations => exact r.reaches_tryDeclarations
  | tuple => exact hadvance.trans r.cursor.advance.reaches_tupleHeads
  | tupleHeads => exact r.cursor.reaches_tupleHeads
  | declarationHead => exact r.cursor.reaches_declarationHead
  | event => exact hadvance.trans r.reaches_event
  | struct => exact hadvance.trans r.reaches_struct
  | fields => exact reaches_block _ _ _ r
  | field => exact r.runs_field.reaches
  | enum => exact hadvance.trans r.reaches_enum
  | enumMembers => exact r.reaches_enumMembers
  | usingFor => exact hadvance.trans r.reaches_usingFor
  | typeName => exact r.reaches_typeName
  | mappingType => exact r.cursor.reaches_mappingType
  | functionType => exact hadvance.trans r.cursor.reaches_functionType
  | arraySuffixes element => exact Cursor.reaches_arraySuffixes element r.cursor
  | path => exact r.cursor.reaches_afterPath
  | skipGroup => exact r.cursor.reaches_skipGroup
  | skipItem => exact r.cursor.reaches_skipItem

def Ready (x : Call) : Prop :=
  ∀ p ∈ x.reader.first?, x.entry.cursor.seesAny p = true

/-- `y` is a call as `x` makes it: further on or on the same place, in front of the token on which
its reader relies, and closer to the end of all calls. -/
structure Leads (x y : Call) : Prop where
  reaches : x.entry.Reaches y.entry
  ready : y.Ready
  descends : x.entry.Passes y.entry ∨ y.reader.rank < x.reader.rank

variable {f g : Reader} {r s : Reading}

theorem Leads.simpler (h : r.Reaches s) (habove : f.isAbove g = true) : Leads ⟨f, r⟩ ⟨g, s⟩ := by
  simp only [Reader.isAbove, Bool.and_eq_true, Option.isNone_iff_eq_none,
    decide_eq_true_eq] at habove
  exact ⟨h, by simp [Ready, habove.1], Or.inr habove.2⟩

theorem Leads.further (h : r.Passes s) (hfirst : g.first? = none) : Leads ⟨f, r⟩ ⟨g, s⟩ :=
  ⟨h.reaches, by simp [Ready, hfirst], Or.inl h⟩

theorem Leads.onKind {kind : Kind} (h : r.Reaches s) (hk : s.kind? = some kind)
    (habove : f.isAboveAt g kind = true) : Leads ⟨f, r⟩ ⟨g, s⟩ := by
  simp only [Reader.isAboveAt, Bool.and_eq_true, Option.all_eq_true, decide_eq_true_eq] at habove
  refine ⟨h, fun p hp => ?_, Or.inr habove.2⟩
  have hkind : s.cursor.kind? = some kind := hk
  simpa [Cursor.seesAny, hkind] using habove.1 p hp

def LeadsAll (x : Call) (ys : List Call) : Prop := ∀ y ∈ ys, x.Leads y

namespace LeadsAll

variable {x y : Call} {ys zs : List Call}

theorem nil : x.LeadsAll [] := by
  simp [LeadsAll]

theorem cons (h : x.Leads y) (hs : x.LeadsAll ys) : x.LeadsAll (y :: ys) :=
  List.forall_mem_cons.mpr ⟨h, hs⟩

theorem single (h : x.Leads y) : x.LeadsAll [y] := cons h nil

theorem append (h : x.LeadsAll ys) (hs : x.LeadsAll zs) : x.LeadsAll (ys ++ zs) :=
  List.forall_mem_append.mpr ⟨h, hs⟩

/-- A reader that is called in front of all others where the caller stands. -/
theorem first (habove : f.isAbove g = true) (hs : LeadsAll ⟨f, r⟩ ys) :
    LeadsAll ⟨f, r⟩ (⟨g, r⟩ :: ys) :=
  cons (.simpler (.refl r.cursor) habove) hs

end LeadsAll

section items

theorem leads_items (r : Reading) : LeadsAll ⟨.items, r⟩ (ofItems r) := by
  unfold ofItems
  split
  next => exact .nil
  next kind hk => exact .first rfl (.single (.further (passes_item hk) rfl))

theorem leads_item (r : Reading) : LeadsAll ⟨.item, r⟩ (ofItem r) := by
  have hhere : r.Reaches r := .refl r.cursor
  unfold ofItem
  split
  next hk => exact .single (.onKind hhere hk rfl)
  next => exact .single (.simpler hhere rfl)
  next => exact .single (.simpler hhere rfl)
  next => exact .single (.simpler hhere rfl)
  next => exact .single (.simpler hhere rfl)
  next hk => exact .single (.onKind hhere hk rfl)
  next hk => exact .single (.onKind hhere hk rfl)
  next => exact .nil
  next => exact .single (.simpler hhere rfl)

theorem leads_contract (r : Reading) : LeadsAll ⟨.contract, r⟩ (ofContract r) := by
  have hkind := r.reaches_atKind
  unfold ofContract
  split
  next => exact .single (.simpler hkind rfl)
  next =>
    have hword := hkind.trans r.atKind.cursor.reaches_advance
    split
    next s hs => exact .single (.simpler (hword.trans (reaches_of_expectName hs)) rfl)
    next name s hs =>
      have hname := hword.trans (reaches_of_expectName hs)
      have hbody := hname.trans (s.reaches_baseList.trans s.baseList.2.reaches_enterBody)
      refine .append ?_ ?_
      · split
        next => exact .single (.simpler (hname.trans s.cursor.reaches_advance) rfl)
        next => exact .nil
      · split
        next => exact .nil
        next t ht =>
          rw [ht] at hbody
          exact .single (.simpler hbody rfl)

theorem leads_bases (r : Reading) : LeadsAll ⟨.bases, r⟩ (ofBases r) := by
  unfold ofBases
  refine .first rfl ?_
  split
  next => exact .nil
  next base c hc =>
    have hpath := Cursor.passes_of_path? hc
    refine .append ?_ ?_
    · split
      next => exact .single (.simpler hpath.reaches rfl)
      next => exact .nil
    · have hgroup : c.Reaches (if c.sees (.opens .paren) then c.skipGroup.2 else c) := by
        split
        · exact c.reaches_skipGroup
        · exact .refl c
      generalize (if c.sees (.opens .paren) then c.skipGroup.2 else c) = d at hgroup ⊢
      split
      next =>
        have hcomma := hpath.trans_reaches (hgroup.trans (Cursor.reaches_advance _))
        exact .single (.further hcomma rfl)
      next => exact .nil

/-- The parts of a block, one call for each and one for those behind it. -/
theorem leads_ofParts {part loop : Reader} (habove : loop.isAbove part = true)
    (hloop : loop.first? = none)
    (hpart : ∀ {kind : Kind}, r.kind? = some kind → kind ≠ .closes .brace →
      r.Passes (exit ⟨part, r⟩)) : LeadsAll ⟨loop, r⟩ (ofParts part loop r) := by
  unfold ofParts
  split
  next => exact .nil
  next kind hk =>
    split
    next => exact .nil
    next hbrace => exact .first habove (.single (.further (hpart hk hbrace) hloop))

theorem leads_member (r : Reading) : LeadsAll ⟨.member, r⟩ (ofMember r) := by
  have hhere : r.Reaches r := .refl r.cursor
  unfold ofMember
  split
  next hk => exact .single (.onKind hhere hk rfl)
  next hk => exact .single (.onKind hhere hk rfl)
  next hk => exact .single (.onKind hhere hk rfl)
  next hk => exact .single (.onKind hhere hk rfl)
  next hk => exact .single (.onKind hhere hk rfl)
  next hk => exact .single (.onKind hhere hk rfl)
  next => exact .nil
  next =>
    split
    next hspecial =>
      simp only [Bool.and_eq_true, Bool.or_eq_true] at hspecial
      rcases hspecial.1 with hword | hword
      · have hk := Cursor.kind?_of_sees hword
        exact .single (.onKind hhere hk rfl)
      · have hk := Cursor.kind?_of_sees hword
        exact .single (.onKind hhere hk rfl)
    next =>
      split
      next => exact .single (.simpler hhere rfl)
      next => exact .single (.simpler hhere rfl)

end items

section members

theorem leads_stateVariable (r : Reading) :
    LeadsAll ⟨.stateVariable, r⟩ (ofStateVariable r) := by
  unfold ofStateVariable
  refine .first rfl ?_
  split
  next s hs =>
    have htype := reaches_of_typeName hs
    exact .single (.simpler htype rfl)
  next type s hs =>
    have htype := reaches_of_typeName hs
    have hname := htype.trans s.cursor.reaches_variableName
    refine .cons (.simpler htype rfl) ?_
    split
    next c hc =>
      rw [hc] at hname
      exact .single (.simpler hname rfl)
    next name c hc =>
      rw [hc] at hname
      exact .single (.simpler hname rfl)

theorem leads_variableName (r : Reading) :
    LeadsAll ⟨.variableName, r⟩ (ofVariableName r) := by
  unfold ofVariableName
  split
  next => exact .nil
  next name c hc =>
    have hadvance : r.Passes r.advance := Cursor.passes_advance (Cursor.passes_of_name? hc).1
    split
    next => exact .nil
    next =>
      split
      next =>
        have hgroup := hadvance.trans_reaches r.advance.cursor.reaches_skipGroup
        exact .cons (.simpler hadvance.reaches rfl) (.single (.further hgroup rfl))
      next => exact .single (.further hadvance rfl)

theorem leads_function (r : Reading) : LeadsAll ⟨.function, r⟩ (ofFunction r) := by
  have hword := r.cursor.reaches_advance
  unfold ofFunction
  split
  next s hs => exact .single (.simpler (hword.trans (reaches_of_functionName hs)) rfl)
  next found s hs =>
    have hname := hword.trans (reaches_of_functionName hs)
    refine .cons (.simpler hname rfl) ?_
    split
    next t ht =>
      exact .single (.simpler (hname.trans (reaches_of_parameterList ht)) rfl)
    next params t ht =>
      have hparams := hname.trans (reaches_of_parameterList ht)
      refine .cons (.simpler hparams rfl) ?_
      split
      next hbrace =>
        have hheader := hparams.trans (t.reaches_functionHeader [])
        have hk := Cursor.kind?_of_sees hbrace
        exact .single (.onKind hheader hk rfl)
      next => exact .nil

theorem leads_functionHeader (r : Reading) :
    LeadsAll ⟨.functionHeader, r⟩ (ofFunctionHeader r) := by
  unfold ofFunctionHeader
  split
  next => exact .nil
  next kind hk =>
    have hadvance : r.Passes r.advance := Cursor.passes_advance_of_kind? hk
    split
    next =>
      have hlist := hadvance.trans_reaches r.advance.reaches_parameterList
      exact .cons (.simpler hadvance.reaches rfl) (.single (.further hlist rfl))
    next =>
      split
      next hparen =>
        have hgroup := Cursor.passes_skipGroup (Cursor.sees_of_kind? (hparen ▸ hk))
        exact .first rfl (.single (.further hgroup rfl))
      next =>
        split
        next => exact .nil
        next => exact .single (.further hadvance rfl)

theorem leads_parameterList (r : Reading) :
    LeadsAll ⟨.parameterList, r⟩ (ofParameterList r) := by
  unfold ofParameterList
  split
  next => exact .single (.simpler r.cursor.reaches_advance rfl)
  next => exact .nil

theorem leads_parameters (r : Reading) :
    LeadsAll ⟨.parameters, r⟩ (ofParameters r) := by
  unfold ofParameters
  split
  next => exact .nil
  next =>
    refine .first rfl ?_
    split
    next => exact .nil
    next c hc =>
      have hcomma := r.reaches_parameter.trans_passes (Cursor.passes_of_eat? hc)
      exact .single (.further hcomma rfl)

theorem leads_event (r : Reading) : LeadsAll ⟨.event, r⟩ (ofEvent r) := by
  have hword := r.cursor.reaches_advance
  unfold ofEvent
  split
  next s hs => exact .single (.simpler (hword.trans (reaches_of_expectName hs)) rfl)
  next name s hs =>
    have hname := hword.trans (reaches_of_expectName hs)
    refine .cons (.simpler hname rfl) ?_
    split
    next t ht =>
      exact .single (.simpler (hname.trans (reaches_of_parameterList ht)) rfl)
    next => exact .nil

theorem leads_ofBlock {role : NameRole} {body : Reader} (hbody : f.isAbove body = true)
    (hskip : f.isAbove .skipItem = true) :
    LeadsAll ⟨f, r⟩ (ofBlock role body r) := by
  have hword := r.cursor.reaches_advance
  unfold ofBlock
  split
  next s hs => exact .single (.simpler (hword.trans (reaches_of_expectName hs)) hskip)
  next name s hs =>
    have hname := hword.trans (reaches_of_expectName hs)
    split
    next => exact .single (.simpler (hname.trans s.cursor.reaches_advance) hbody)
    next => exact .single (.simpler hname hskip)

theorem leads_field (r : Reading) : LeadsAll ⟨.field, r⟩ (ofField r) := by
  unfold ofField
  refine .first rfl ?_
  split
  next s hs =>
    have htype := reaches_of_typeName hs
    exact .single (.simpler htype rfl)
  next type s hs =>
    have htype := reaches_of_typeName hs
    split
    next t ht =>
      exact .single (.simpler (htype.trans (reaches_of_expectName ht)) rfl)
    next => exact .nil

theorem leads_enumMembers (r : Reading) :
    LeadsAll ⟨.enumMembers, r⟩ (ofEnumMembers r) := by
  unfold ofEnumMembers
  split
  next => exact .nil
  next kind hk =>
    split
    next =>
      have hcomma := (passes_enumMember hk).trans_reaches (Cursor.reaches_advance _)
      exact .single (.further hcomma rfl)
    next => exact .nil

theorem leads_usingFor (r : Reading) : LeadsAll ⟨.usingFor, r⟩ (ofUsingFor r) := by
  have hword := r.cursor.reaches_advance
  unfold ofUsingFor
  split
  next =>
    have hgroup := hword.trans r.cursor.advance.reaches_skipGroup
    exact .cons (.simpler hword rfl) (.single (.simpler hgroup rfl))
  next =>
    refine .cons (.simpler hword rfl) ?_
    split
    next => exact .single (.simpler hword rfl)
    next library c hc =>
      have hpath := hword.trans (Cursor.passes_of_path? hc).reaches
      split
      next => exact .single (.simpler hpath rfl)
      next d hd =>
        have hfor := hpath.trans (Cursor.passes_of_eat? hd).reaches
        split
        next => exact .nil
        next =>
          refine .cons (.simpler hfor rfl) ?_
          split
          next s hs =>
            exact .single (.simpler (hfor.trans (reaches_of_typeName hs)) rfl)
          next => exact .nil

end members

section bodies

theorem leads_walk (inner : Nat) (place : Cursor.Place) (r : Reading) :
    LeadsAll ⟨.walk inner place, r⟩ (ofWalk inner place r) := by
  have hdecl := r.cursor.reaches_declarationsAt place
  unfold ofWalk
  refine .append ?_ ?_
  · split
    next => exact .single (.simpler (.refl r.cursor) rfl)
    next => exact .nil
  · split
    next => exact .nil
    next t ts hr =>
      split
      next => exact .nil
      next =>
        have htoken := hdecl.trans_passes (Cursor.passes_advance (by
          rw [cursor_goTo] at hr
          simp [hr]))
        exact .single (.further htoken rfl)

theorem leads_declarations (r : Reading) :
    LeadsAll ⟨.declarations, r⟩ (ofDeclarations r) := by
  have hhere : r.Reaches r := .refl r.cursor
  unfold ofDeclarations
  split
  next hparen =>
    have hk := Cursor.kind?_of_sees hparen
    exact .single (.onKind hhere hk rfl)
  next => exact .single (.simpler hhere rfl)

theorem leads_tupleHeads (r : Reading) :
    LeadsAll ⟨.tupleHeads, r⟩ (ofTupleHeads r) := by
  unfold ofTupleHeads
  split
  next hk => exact .single (.further (Cursor.passes_advance_of_kind? hk) rfl)
  next => exact .nil
  next =>
    refine .first rfl ?_
    split
    next => exact .nil
    next v c hc =>
      split
      next => exact .single (.further (Cursor.passes_of_declarationHead hc) rfl)
      next => exact .nil

theorem leads_declarationHead (r : Reading) :
    LeadsAll ⟨.declarationHead, r⟩ (ofDeclarationHead r) := by
  unfold ofDeclarationHead
  split
  next => exact .single (.simpler (.refl r.cursor) rfl)
  next => exact .nil

end bodies

section types

theorem leads_typeName (r : Reading) : LeadsAll ⟨.typeName, r⟩ (ofTypeName r) := by
  have hhere : r.Reaches r := .refl r.cursor
  have hbase := r.cursor.reaches_baseType
  unfold ofTypeName
  refine .append ?_ ?_
  · split
    next hk => exact .single (.onKind hhere hk rfl)
    next hk => exact .single (.onKind hhere hk rfl)
    next =>
      split
      next => exact .single (.simpler hhere rfl)
      next => exact .nil
  · split
    next => exact .nil
    next element c hc =>
      rw [hc] at hbase
      exact .single (.simpler hbase rfl)

theorem leads_mappingType (r : Reading) :
    LeadsAll ⟨.mappingType, r⟩ (ofMappingType r) := by
  unfold ofMappingType
  split
  next => exact .nil
  next c hc =>
    have hkey := r.cursor.reaches_advance.trans_passes (Cursor.passes_of_eat? hc)
    refine .cons (.further hkey rfl) ?_
    split
    next => exact .nil
    next key d hd =>
      have htype := (Cursor.passes_of_typeName hd).reaches
      have hname := htype.trans (d.reaches_skipNameBefore .fatArrow)
      split
      next => exact .nil
      next e he =>
        have hvalue := hkey.trans_reaches (hname.trans (Cursor.passes_of_eat? he).reaches)
        exact .single (.further hvalue rfl)

theorem leads_functionType (r : Reading) :
    LeadsAll ⟨.functionType, r⟩ (ofFunctionType r) := by
  have hword := r.cursor.reaches_advance
  have hgroup := hword.trans r.cursor.advance.reaches_skipGroup
  unfold ofFunctionType
  refine .cons (.simpler hword rfl) ?_
  split
  next => exact .nil
  next c hc =>
    rw [hc] at hgroup
    split
    next => exact .nil
    next d hd =>
      have hword := (c.reaches_skipWords _).trans (Cursor.passes_of_eat? hd).reaches
      have hreturns := hgroup.trans hword
      exact .single (.simpler hreturns rfl)

theorem leads_arraySuffixes (element : TypeName) (r : Reading) :
    LeadsAll ⟨.arraySuffixes element, r⟩ (ofArraySuffixes element r) := by
  unfold ofArraySuffixes
  split
  next hopen =>
    split
    next => exact .nil
    next c hc =>
      have hlength := (Cursor.passes_advance_of_sees hopen).trans_reaches
        ((Cursor.reaches_skip _ _).trans (Cursor.passes_of_eat? hc).reaches)
      exact .single (.further hlength rfl)
  next => exact .nil

end types

/-- Whatever a call does, the calls that it makes begin further on or have less to do. -/
theorem leadsAll_subcalls (x : Call) : x.LeadsAll x.subcalls := by
  obtain ⟨f, r⟩ := x
  cases f with
  | items => exact leads_items r
  | item => exact leads_item r
  | fileImport => exact .nil
  | contract => exact leads_contract r
  | bases => exact leads_bases r
  | contractBody => exact leads_ofParts rfl rfl passes_member
  | member => exact leads_member r
  | stateVariable => exact leads_stateVariable r
  | variableName => exact leads_variableName r
  | function => exact leads_function r
  | functionHeader => exact leads_functionHeader r
  | parameterList => exact leads_parameterList r
  | parameters => exact leads_parameters r
  | parameter => exact .first rfl .nil
  | functionBody => exact .single (.simpler r.cursor.reaches_advance rfl)
  | walk inner place => exact leads_walk inner place r
  | declarations => exact leads_declarations r
  | tuple => exact .single (.simpler r.cursor.reaches_advance rfl)
  | tupleHeads => exact leads_tupleHeads r
  | declarationHead => exact leads_declarationHead r
  | event => exact leads_event r
  | struct => exact leads_ofBlock rfl rfl
  | fields => exact leads_ofParts rfl rfl passes_field
  | field => exact leads_field r
  | enum => exact leads_ofBlock rfl rfl
  | enumMembers => exact leads_enumMembers r
  | usingFor => exact leads_usingFor r
  | typeName => exact leads_typeName r
  | mappingType => exact leads_mappingType r
  | functionType => exact leads_functionType r
  | arraySuffixes element => exact leads_arraySuffixes element r
  | path => exact .nil
  | skipGroup => exact .nil
  | skipItem => exact .nil

end Call

end SolidityCompass
