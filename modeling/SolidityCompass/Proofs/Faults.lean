import Mathlib.Logic.Relation
import SolidityCompass.Outline.Read

/-!
# Errors are never taken away

Whatever a reader looks for, it does no more than move forward, report errors and walk over the
bodies of functions. `Step` is one of these and `Runs` some of them in a row, and every reader is
shown once to be such a run. So it gives back the errors it was given with possibly new ones in
front of them, a text without errors was read by readers that all met no error, and an error about
a body that is not closed comes from a walk over a body that is not closed.
-/

namespace SolidityCompass

namespace Reading

/-- The errors of `r` are the oldest errors of `s`. -/
def Keeps (r s : Reading) : Prop := r.faults <:+ s.faults

/-- What a reader does at a time: it moves forward, it reports an error that is not about the body
of a function, or it walks over such a body. -/
inductive Step : Reading → Reading → Prop
  | move {r : Reading} {c : Cursor} (h : r.cursor.Reaches c) : Step r (r.goTo c)
  | report {r : Reading} {fault : Fault} {range : ByteRange}
      (h : fault ≠ .unterminated .functionBody) : Step r (r.reportAt fault range)
  | walk {r : Reading} (h : r.sees (.opens .brace) = true) : Step r r.functionBody.2

def Runs (r s : Reading) : Prop := Relation.ReflTransGen Step r s

variable {r s t : Reading}

section steps

theorem functionBody_snd (r : Reading) :
    r.functionBody.2 = r.goTo (r.cursor.advance.scanBody 0 .fresh).cursor ∨
      (r.cursor.advance.scanBody 0 .fresh).closed = none ∧
        r.functionBody.2 = (r.goTo (r.cursor.advance.scanBody 0 .fresh).cursor).reportAt
          (.unterminated .functionBody) ⟨r.here.start, r.cursor.textEnd⟩ := by
  unfold functionBody
  dsimp only
  split
  next => exact Or.inl rfl
  next hopen => exact Or.inr ⟨hopen, rfl⟩

theorem Step.reaches (h : Step r s) : r.Reaches s := by
  cases h with
  | move h => exact h
  | report => exact .refl r.cursor
  | walk => exact r.reaches_functionBody

theorem Step.keeps (h : Step r s) : r.Keeps s := by
  cases h with
  | move => exact List.suffix_refl r.faults
  | report => exact List.suffix_cons _ _
  | walk =>
    rcases r.functionBody_snd with hclosed | ⟨-, hopen⟩
    · rw [hclosed]
      exact List.suffix_refl r.faults
    · rw [hopen]
      exact List.suffix_cons _ _

def SeesOpenBody (r : Reading) : Prop :=
  r.sees (.opens .brace) = true ∧ (r.cursor.advance.scanBody 0 .fresh).closed = none

/-- A step reports that a body is not closed only where it walks over one. -/
theorem Step.seesOpenBody {e : SyntaxError} (h : Step r s) (he : e ∈ s.faults)
    (hf : e.fault = .unterminated .functionBody) :
    e ∈ r.faults ∨ r.SeesOpenBody ∧ e.range.start = r.here.start := by
  cases h with
  | move => exact Or.inl he
  | report h =>
    rcases List.mem_cons.mp he with rfl | he
    · exact absurd hf h
    · exact Or.inl he
  | walk h =>
    rcases r.functionBody_snd with hclosed | ⟨hopen, hwalk⟩
    · rw [hclosed] at he
      exact Or.inl he
    · rw [hwalk] at he
      rcases List.mem_cons.mp he with rfl | he
      · exact Or.inr ⟨⟨h, hopen⟩, rfl⟩
      · exact Or.inl he

end steps

namespace Runs

@[refl] theorem refl (r : Reading) : r.Runs r := Relation.ReflTransGen.refl

theorem trans (h : r.Runs s) (h' : s.Runs t) : r.Runs t := Relation.ReflTransGen.trans h h'

theorem reaches (h : r.Runs s) : r.Reaches s := by
  induction h with
  | refl => exact .refl r.cursor
  | tail _ hstep ih => exact ih.trans hstep.reaches

theorem keeps (h : r.Runs s) : r.Keeps s := by
  induction h with
  | refl => exact List.suffix_refl r.faults
  | tail _ hstep ih => exact ih.trans hstep.keeps

theorem faults_eq_nil (h : r.Runs s) (hs : s.faults = []) : r.faults = [] :=
  List.suffix_nil.mp (hs ▸ h.keeps)

/-- A new error about a body that is not closed tells where on the way such a body starts. -/
theorem exists_seesOpenBody {e : SyntaxError} (h : r.Runs s) (he : e ∈ s.faults)
    (hf : e.fault = .unterminated .functionBody) :
    e ∈ r.faults ∨ ∃ t, r.Reaches t ∧ t.SeesOpenBody ∧ e.range.start = t.here.start := by
  induction h with
  | refl => exact Or.inl he
  | tail hrun hstep ih =>
    rcases hstep.seesOpenBody he hf with he | hopen
    · exact ih he
    · exact Or.inr ⟨_, reaches hrun, hopen⟩

theorem goTo {c : Cursor} (h : r.Runs s) (hc : s.cursor.Reaches c) : r.Runs (s.goTo c) :=
  Relation.ReflTransGen.tail h (.move hc)

theorem advance (h : r.Runs s) : r.Runs s.advance := h.goTo s.cursor.reaches_advance

theorem skipItem (h : r.Runs s) : r.Runs s.skipItem := h.goTo s.cursor.reaches_skipItem

theorem skipKind (h : r.Runs s) (kind : Kind) : r.Runs (s.skipKind kind) := by
  unfold Reading.skipKind
  split
  · exact h.advance
  · exact h

theorem reportAt {fault : Fault} (h : r.Runs s) (range : ByteRange)
    (hf : fault ≠ .unterminated .functionBody) : r.Runs (s.reportAt fault range) :=
  Relation.ReflTransGen.tail h (.report hf)

theorem report (h : r.Runs s) (fault : Fault) (hf : fault ≠ .unterminated .functionBody) :
    r.Runs (s.report fault) :=
  h.reportAt _ hf

theorem recover (h : r.Runs s) (fault : Fault) (hf : fault ≠ .unterminated .functionBody) :
    r.Runs (s.recover fault) :=
  (h.report fault hf).skipItem

theorem expect (h : r.Runs s) (kind : Kind) : r.Runs (s.expect kind) := by
  unfold Reading.expect
  split
  · exact h.advance
  · exact h.report _ (by simp)

theorem expectName {role : NameRole} {name : Option Name} (h : r.Runs s)
    (hn : s.expectName role = (name, t)) : r.Runs t := by
  unfold Reading.expectName at hn
  split at hn
  next name c hc =>
    cases hn
    exact h.goTo (Cursor.passes_of_name? hc).reaches
  next =>
    cases hn
    exact h.report _ (by simp)

theorem typeName {type : Option TypeName} (h : r.Runs s) (ht : s.typeName = (type, t)) :
    r.Runs t := by
  cases ht
  exact h.goTo s.cursor.reaches_typeName

end Runs

@[simp] theorem faults_reportAt_ne_nil (r : Reading) (fault : Fault) (range : ByteRange) :
    (r.reportAt fault range).faults ≠ [] :=
  List.cons_ne_nil _ _

@[simp] theorem faults_report_ne_nil (r : Reading) (fault : Fault) :
    (r.report fault).faults ≠ [] :=
  List.cons_ne_nil _ _

@[simp] theorem faults_recover_ne_nil (r : Reading) (fault : Fault) :
    (r.recover fault).faults ≠ [] :=
  List.cons_ne_nil _ _

theorem sees_of_faults_expect {kind : Kind} (h : (r.expect kind).faults = []) :
    r.sees kind = true ∧ r.expect kind = r.advance := by
  unfold expect at h ⊢
  split at h
  next hs => exact ⟨hs, if_pos hs⟩
  next => exact absurd h (faults_report_ne_nil _ _)

section functions

theorem runs_parameter (r : Reading) : r.Runs r.parameter.2 := by
  unfold parameter
  split
  next s hs =>
    have hreport := ((Runs.refl r).typeName hs).report .expectedParameterType (by simp)
    exact hreport.goTo (Cursor.reaches_skipUntil _ _)
  next type s hs =>
    have htype := (Runs.refl r).typeName hs
    have hwords := s.cursor.reaches_skipLocation.trans (Cursor.reaches_skipWords ["indexed"] _)
    dsimp only
    split
    next name c hc => exact htype.goTo (hwords.trans (Cursor.passes_of_name? hc).reaches)
    next => exact htype.goTo hwords

theorem runs_parameters (r : Reading) : r.Runs r.parameters.2 := by
  fun_induction parameters r with
  | case1 r => exact .refl r
  | case2 r _ c hc _ _ ih =>
    exact (r.runs_parameter.goTo (Cursor.passes_of_eat? hc).reaches).trans ih
  | case3 r => exact r.runs_parameter

theorem runs_parameterList (r : Reading) : r.Runs r.parameterList.2 := by
  unfold parameterList
  split
  · exact ((Runs.refl r).advance.trans (runs_parameters _)).expect _
  · exact (Runs.refl r).report _ (by simp)

theorem Runs.parameterList {params : Option (List Parameter)} (h : r.Runs s)
    (hp : s.parameterList = (params, t)) : r.Runs t := by
  have hlist := s.runs_parameterList
  rw [hp] at hlist
  exact h.trans hlist

theorem runs_functionHeader (returns : List Parameter) (r : Reading) :
    r.Runs (r.functionHeader returns).2 := by
  fun_induction functionHeader returns r with
  | case1 _ r => exact .refl r
  | case2 _ r _ _ ih => exact ((Runs.refl r).advance.trans (runs_parameterList _)).trans ih
  | case3 _ r _ _ _ ih => exact ((Runs.refl r).goTo r.cursor.reaches_skipGroup).trans ih
  | case4 _ r => exact .refl r
  | case5 _ r _ _ _ _ _ _ ih => exact (Runs.refl r).advance.trans ih

theorem runs_functionName (r : Reading) : r.Runs r.functionName.2 := by
  have hadvance := (Runs.refl r).advance
  unfold functionName
  dsimp only
  split
  · exact hadvance
  · exact hadvance
  · exact hadvance
  · split
    · exact hadvance
    · exact hadvance.expectName rfl

theorem runs_function (r : Reading) : r.Runs r.function.2 := by
  have hname := r.runs_functionName
  unfold function
  split
  next s hs =>
    rw [hs] at hname
    exact hname.skipItem
  next kind name s hs =>
    rw [hs] at hname
    split
    next s' hs' => exact (hname.parameterList hs').skipItem
    next params s' hs' =>
      have hheader := (hname.parameterList hs').trans (s'.runs_functionHeader [])
      dsimp only
      split
      next hbrace => exact Relation.ReflTransGen.tail hheader (.walk hbrace)
      next => exact hheader.expect _

theorem runs_event (r : Reading) : r.Runs r.event.2 := by
  unfold event
  split
  next s hs => exact ((Runs.refl r).advance.expectName hs).skipItem
  next name s hs =>
    have hname := (Runs.refl r).advance.expectName hs
    split
    next s' hs' => exact (hname.parameterList hs').skipItem
    next params s' hs' =>
      exact ((hname.parameterList hs').goTo (s'.cursor.reaches_skipWord "anonymous")).expect _

end functions

section declarations

theorem runs_block {α : Type} {name : Block} {part : Reading → Option α × Reading}
    {progress : ∀ {r : Reading} {kind : Kind}, r.kind? = some kind → kind ≠ .closes .brace →
      r.Passes (part r).2} (hname : name ≠ .functionBody)
    (hpart : ∀ r : Reading, r.Runs (part r).2) (r : Reading) :
    r.Runs (r.block name part progress).2 := by
  fun_induction block name part progress r with
  | case1 r => exact (Runs.refl r).report _ (by simpa using hname)
  | case2 r => exact (Runs.refl r).advance
  | case3 r _ _ _ _ _ ih => exact (hpart r).trans ih

theorem runs_field (r : Reading) : r.Runs r.field.2 := by
  unfold field
  split
  next s hs => exact ((Runs.refl r).typeName hs).recover _ (by simp)
  next type s hs =>
    have htype := (Runs.refl r).typeName hs
    split
    next s' hs' => exact (htype.expectName hs').skipItem
    next name s' hs' => exact (htype.expectName hs').expect _

theorem runs_blockName (r : Reading) (role : NameRole) : r.Runs (r.blockName role).2 := by
  unfold blockName
  split
  next s hs => exact ((Runs.refl r).expectName hs).skipItem
  next name s hs =>
    have hname := (Runs.refl r).expectName hs
    split
    · exact hname.advance
    · exact hname.recover _ (by simp)

theorem runs_struct (r : Reading) : r.Runs r.struct.2 := by
  have hname := (Runs.refl r).advance.trans (r.advance.runs_blockName .struct)
  unfold struct
  split
  next s hs => rwa [hs] at hname
  next name s hs =>
    rw [hs] at hname
    exact hname.trans (runs_block (by simp) runs_field s)

theorem runs_enumMember (r : Reading) : r.Runs r.enumMember.2 := by
  unfold enumMember
  split
  next name c hc => exact (Runs.refl r).goTo (Cursor.passes_of_name? hc).reaches
  next => exact ((Runs.refl r).report _ (by simp)).advance

theorem runs_enumMembers (r : Reading) : r.Runs r.enumMembers.2 := by
  fun_induction enumMembers r with
  | case1 r => exact (Runs.refl r).report _ (by simp)
  | case2 r => exact (Runs.refl r).advance
  | case3 r _ _ _ _ _ _ ih => exact r.runs_enumMember.advance.trans ih
  | case4 r => exact r.runs_enumMember.expect _

theorem runs_enum (r : Reading) : r.Runs r.enum.2 := by
  have hname := (Runs.refl r).advance.trans (r.advance.runs_blockName .enum)
  unfold enum
  split
  next s hs => rwa [hs] at hname
  next name s hs =>
    rw [hs] at hname
    exact hname.trans s.runs_enumMembers

theorem Runs.usingEnd (h : r.Runs s) : r.Runs s.usingEnd :=
  (h.goTo (s.cursor.reaches_skipWord "global")).expect .semicolon

theorem runs_usingFor (r : Reading) : r.Runs r.usingFor.2 := by
  have hadvance := (Runs.refl r).advance
  unfold usingFor
  split
  next => exact (hadvance.goTo (Cursor.reaches_skipGroup _)).skipItem
  next =>
    split
    next => exact hadvance.recover _ (by simp)
    next library c hc =>
      have hpath := hadvance.goTo (Cursor.passes_of_path? hc).reaches
      split
      next => exact hpath.recover _ (by simp)
      next d hd =>
        have hfor := hpath.goTo (Cursor.passes_of_eat? hd).reaches
        split
        next => exact (hfor.goTo d.reaches_advance).usingEnd
        next =>
          split
          next s hs => exact (hfor.typeName hs).recover _ (by simp)
          next target s hs => exact (hfor.typeName hs).usingEnd

theorem runs_stateVariable (r : Reading) : r.Runs r.stateVariable.2 := by
  unfold stateVariable
  split
  next s hs => exact ((Runs.refl r).typeName hs).recover _ (by simp)
  next type s hs =>
    have htype := (Runs.refl r).typeName hs
    have hname := htype.goTo s.cursor.reaches_variableName
    split
    next c hc =>
      rw [hc] at hname
      exact hname.recover _ (by simp)
    next name c hc =>
      rw [hc] at hname
      exact hname.skipItem

theorem runs_member (r : Reading) : r.Runs r.member.2 := by
  unfold member
  split
  · exact r.runs_function
  · exact r.runs_function
  · exact r.runs_event
  · exact r.runs_struct
  · exact r.runs_enum
  · exact r.runs_usingFor
  · exact (Runs.refl r).advance
  · split
    · exact r.runs_function
    · split
      · exact (Runs.refl r).skipItem
      · exact r.runs_stateVariable

end declarations

section items

theorem runs_bases (r : Reading) : r.Runs r.bases.2 := by
  have hgroup (c : Cursor) : c.Reaches (if c.sees (.opens .paren) then c.skipGroup.2 else c) := by
    split
    · exact c.reaches_skipGroup
    · exact .refl c
  fun_induction bases r with
  | case1 r => exact (Runs.refl r).report _ (by simp)
  | case2 r _ c hc _ _ _ _ ih =>
    have hbase := (Runs.refl r).goTo ((Cursor.passes_of_path? hc).reaches.trans (hgroup c))
    exact hbase.advance.trans ih
  | case3 r _ c hc =>
    exact (Runs.refl r).goTo ((Cursor.passes_of_path? hc).reaches.trans (hgroup c))

theorem runs_baseList (r : Reading) : r.Runs r.baseList.2 := by
  unfold baseList
  split
  · exact (Runs.refl r).advance.trans (runs_bases _)
  · exact .refl r

theorem runs_enterBody (r : Reading) : r.Runs r.enterBody.2 := by
  unfold enterBody
  split
  · exact (Runs.refl r).advance
  · have hreport := (Runs.refl r).report .expectedContractBody (by simp)
    have hskip := hreport.goTo (Cursor.reaches_skipUntil opensBody _)
    dsimp only
    split
    · exact hskip.advance
    · exact hskip.skipKind _

theorem runs_contractFrom (start : Nat) (isAbstract : Bool) (r : Reading) :
    r.Runs (r.contractFrom start isAbstract).2 := by
  unfold contractFrom
  split
  next => exact (Runs.refl r).recover _ (by simp)
  next kind hkind =>
    split
    next s hs => exact ((Runs.refl r).advance.expectName hs).skipItem
    next name s hs =>
      have hname := (Runs.refl r).advance.expectName hs
      have hbody := hname.trans (s.runs_baseList.trans s.baseList.2.runs_enterBody)
      dsimp only
      split
      next s' hs' => rwa [hs'] at hbody
      next s' hs' =>
        rw [hs'] at hbody
        exact hbody.trans (runs_block (by simp) runs_member s')

theorem runs_contract (r : Reading) : r.Runs r.contract.2 := by
  unfold contract
  split
  · exact (Runs.refl r).advance.trans (runs_contractFrom _ _ _)
  · exact r.runs_contractFrom _ _

theorem runs_fileImport (r : Reading) : r.Runs r.fileImport.2 := by
  have hskip := (Runs.refl r).advance.goTo (Cursor.reaches_skipUntil endsImport _)
  have hend := hskip.expect .semicolon
  unfold fileImport
  dsimp only
  split
  · exact hend
  · exact hend.reportAt _ (by simp)

theorem runs_item (r : Reading) : r.Runs r.item.2 := by
  unfold item
  split
  · exact r.runs_fileImport
  · exact r.runs_contract
  · exact r.runs_contract
  · exact r.runs_contract
  · exact r.runs_contract
  · exact r.runs_struct
  · exact r.runs_enum
  · exact ((Runs.refl r).report _ (by simp)).advance
  · exact (Runs.refl r).skipItem

theorem runs_items (r : Reading) : r.Runs r.items.2 := by
  fun_induction items r with
  | case1 r => exact .refl r
  | case2 r _ _ _ _ ih => exact r.runs_item.trans ih

end items

end Reading

end SolidityCompass
