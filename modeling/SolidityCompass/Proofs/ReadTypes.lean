import SolidityCompass.Proofs.DeclarationGrammar
import SolidityCompass.Proofs.Names

/-!
# The types of an outline are read from its text

No type of an outline is made up: `Cursor.typeName` reads it at some place of the text. Each reader
keeps this for the types that it finds, so that what holds of every type that is read holds of every
type of an outline, with errors in the text or without.
-/

namespace SolidityCompass

def TypeName.ReadIn (text : String) (t : TypeName) : Prop :=
  ∃ c : Cursor, c.In text ∧ c.typeName.1 = some t

def Function.types (f : Function) : List TypeName :=
  f.params.map Parameter.type ++ f.returns.map Parameter.type ++ f.locals.map LocalVariable.type

def Event.types (e : Event) : List TypeName :=
  e.params.map Parameter.type

def Struct.types (s : Struct) : List TypeName :=
  s.fields.map Field.type

def Member.types : Member → List TypeName
  | .function f => f.types
  | .event e => e.types
  | .variable v => [v.type]
  | .struct s => s.types
  | .enum _ => []
  | .usingFor u => u.target.toList

def Item.types : Item → List TypeName
  | .fileImport _ => []
  | .contract c => c.members.flatMap Member.types
  | .struct s => s.types
  | .enum _ => []

namespace Cursor

variable {text : String} {c d : Cursor}

theorem In.readIn_of_head {v : LocalVariable} (h : c.In text) (hv : c.Head v d) :
    v.type.ReadIn text := by
  cases hv with
  | intro _ _ _ type_eq => exact ⟨c, h, congrArg Prod.fst type_eq⟩

theorem In.readIn_declarationsAt (h : c.In text) (place : Place) :
    ∀ v ∈ (c.declarationsAt place).1, v.type.ReadIn text := by
  unfold declarationsAt declarations
  split
  next =>
    cases hd : c.declarations? with
    | none => simp
    | some found =>
      obtain ⟨vs, d⟩ := found
      intro v hv
      obtain ⟨a, b, ha, hhead⟩ := (declarations?_eq_some_iff.mp hd).exists_head hv
      exact (h.reaches ha).readIn_of_head hhead
  next => simp

theorem In.readIn_scanBody (h : c.In text) (inner : Nat) (place : Place) :
    ∀ v ∈ (c.scanBody inner place).locals, v.type.ReadIn text := by
  fun_induction scanBody inner place c with
  | case1 inner place c => exact h.readIn_declarationsAt place
  | case2 inner place c => exact h.readIn_declarationsAt place
  | case3 inner place c _ _ _ d _ _ tail ih =>
    have hspot := h.reaches (c.reaches_declarationsAt place)
    exact List.forall_mem_append.mpr ⟨h.readIn_declarationsAt place, ih hspot.advance⟩

end Cursor

namespace Reading

variable {text : String} {r s : Reading} {t : TypeName}

theorem readIn_of_typeName (h : r.cursor.In text) (ht : r.typeName = (some t, s)) :
    t.ReadIn text :=
  ⟨r.cursor, h, congrArg Prod.fst ht⟩

theorem readIn_parameter (h : r.cursor.In text) :
    ∀ p ∈ r.parameter.1, p.type.ReadIn text := by
  unfold parameter
  split
  next => simp
  next type s hs =>
    have htype := readIn_of_typeName h hs
    dsimp only
    split <;> simpa using htype

theorem readIn_parameters (h : r.cursor.In text) :
    ∀ p ∈ r.parameters.1, p.type.ReadIn text := by
  fun_induction parameters r with
  | case1 => simp
  | case2 r _ c hc _ _ ih =>
    have hnext := h.reaches (r.reaches_parameter.trans (Cursor.passes_of_eat? hc).reaches)
    refine List.forall_mem_append.mpr ⟨?_, ih hnext⟩
    simpa using readIn_parameter h
  | case3 r => simpa using readIn_parameter h

theorem readIn_parameterList (h : r.cursor.In text) :
    ∀ p ∈ r.parameterList.1.getD [], p.type.ReadIn text := by
  unfold parameterList
  split
  · exact readIn_parameters (show r.advance.cursor.In text from h.advance)
  · simp

theorem readIn_functionHeader (h : r.cursor.In text) {returns : List Parameter}
    (hreturns : ∀ p ∈ returns, p.type.ReadIn text) :
    ∀ p ∈ (r.functionHeader returns).1, p.type.ReadIn text := by
  fun_induction functionHeader returns r with
  | case1 => exact hreturns
  | case2 _ r _ _ ih =>
    have hlist : r.advance.cursor.In text := h.advance
    exact ih (hlist.reaches (reaches_parameterList _)) (readIn_parameterList hlist)
  | case3 _ r _ _ _ ih => exact ih (h.reaches r.cursor.reaches_skipGroup) hreturns
  | case4 => exact hreturns
  | case5 _ r _ _ _ _ _ _ ih => exact ih h.advance hreturns

theorem readIn_functionBody (h : r.cursor.In text) :
    ∀ v ∈ r.functionBody.1.locals, v.type.ReadIn text := by
  have hlocals := h.advance.readIn_scanBody 0 .fresh
  unfold functionBody
  dsimp only
  split <;> exact hlocals

theorem readIn_function (h : r.cursor.In text) :
    ∀ f ∈ r.function.1, ∀ t ∈ f.types, t.ReadIn text := by
  unfold function
  split
  next => simp
  next kind name s hs =>
    have hin := h.advance.reaches (reaches_of_functionName hs)
    split
    next => simp
    next params s' hs' =>
      have hparams : ∀ p ∈ params, p.type.ReadIn text := by
        simpa [hs'] using readIn_parameterList hin
      have hafter := hin.reaches (reaches_of_parameterList hs')
      have hreturns : ∀ p ∈ (s'.functionHeader []).1, p.type.ReadIn text :=
        readIn_functionHeader hafter (by simp)
      have hend := hafter.reaches (s'.reaches_functionHeader [])
      dsimp only
      split
      next =>
        have hlocals := readIn_functionBody hend
        rintro f ⟨⟩
        simp only [Function.types, List.forall_mem_append, List.forall_mem_map]
        exact ⟨⟨hparams, hreturns⟩, hlocals⟩
      next =>
        rintro f ⟨⟩
        simp only [Function.types, List.forall_mem_append, List.forall_mem_map]
        exact ⟨⟨hparams, hreturns⟩, by simp [Function.locals]⟩

theorem readIn_event (h : r.cursor.In text) :
    ∀ e ∈ r.event.1, ∀ t ∈ e.types, t.ReadIn text := by
  unfold event
  split
  next => simp
  next name s hs =>
    have hin := h.advance.reaches (reaches_of_expectName hs)
    split
    next => simp
    next params s' hs' =>
      rintro e ⟨⟩
      rw [Event.types, List.forall_mem_map]
      simpa [hs'] using readIn_parameterList hin

theorem readIn_field (h : r.cursor.In text) : ∀ f ∈ r.field.1, f.type.ReadIn text := by
  unfold field
  split
  next => simp
  next type s hs =>
    have htype := readIn_of_typeName h hs
    split
    next => simp
    next => simpa using htype

theorem readIn_struct (h : r.cursor.In text) :
    ∀ s ∈ r.struct.1, ∀ t ∈ s.types, t.ReadIn text := by
  unfold struct
  split
  next => simp
  next name s hs =>
    have hin := h.advance.reaches (reaches_of_blockName hs)
    rintro found ⟨⟩
    rw [Struct.types, List.forall_mem_map]
    intro f hf
    obtain ⟨u, hu, -, hfield, -⟩ := exists_of_mem_block hf
    exact readIn_field (hin.reaches hu) f hfield

theorem readIn_usingFor (h : r.cursor.In text) :
    ∀ u ∈ r.usingFor.1, ∀ t ∈ u.target.toList, t.ReadIn text := by
  unfold usingFor
  split
  next => simp
  next =>
    split
    next => simp
    next library c hc =>
      have hin := h.advance.reaches (Cursor.passes_of_path? hc).reaches
      split
      next => simp
      next d hd =>
        replace hin := hin.reaches (Cursor.passes_of_eat? hd).reaches
        split
        next => simp
        next =>
          split
          next => simp
          next target s hs =>
            have htarget := readIn_of_typeName (show (r.goTo d).cursor.In text from hin) hs
            simpa using htarget

theorem readIn_stateVariable (h : r.cursor.In text) :
    ∀ v ∈ r.stateVariable.1, v.type.ReadIn text := by
  unfold stateVariable
  split
  next => simp
  next type s hs =>
    have htype := readIn_of_typeName h hs
    split
    next => simp
    next => simpa using htype

theorem readIn_member (h : r.cursor.In text) :
    ∀ m ∈ r.member.1, ∀ t ∈ m.types, t.ReadIn text := by
  unfold member
  split
  next => simpa [Member.types] using readIn_function h
  next => simpa [Member.types] using readIn_function h
  next => simpa [Member.types] using readIn_event h
  next => simpa [Member.types] using readIn_struct h
  next => simp [Member.types]
  next => simpa [Member.types] using readIn_usingFor h
  next => simp
  next =>
    split
    next => simpa [Member.types] using readIn_function h
    next =>
      split
      next => simp
      next => simpa [Member.types] using readIn_stateVariable h

theorem readIn_contract (h : r.cursor.In text) {c : Contract} (hc : r.contract.1 = some c) :
    ∀ t ∈ c.members.flatMap Member.types, t.ReadIn text := by
  obtain ⟨s, -, hbody, hmembers, -⟩ := contract_cases hc
  obtain ⟨u, rfl, -, hreach⟩ := exists_brace_of_body? hbody
  have hin := (h.reaches hreach).advance
  intro t ht
  obtain ⟨m, hm, ht⟩ := List.mem_flatMap.mp ht
  rw [hmembers] at hm
  obtain ⟨v, hv, -, hmember, -⟩ := exists_of_mem_block hm
  exact readIn_member (hin.reaches hv) m hmember t ht

theorem readIn_item (h : r.cursor.In text) : ∀ x ∈ r.item.1, ∀ t ∈ x.types, t.ReadIn text := by
  intro x hx
  cases x with
  | fileImport => simp [Item.types]
  | contract c => exact readIn_contract h (item_eq_contract hx).2
  | struct s => exact readIn_struct h s (struct_eq_of_item hx)
  | enum => simp [Item.types]

end Reading

/-- Every type of an outline is read at some place of its text. -/
theorem readIn_outline {text : String} {x : Item} {t : TypeName}
    (h : x ∈ (readOutline text).outline.items) (ht : t ∈ x.types) : t.ReadIn text := by
  obtain ⟨r, hwalk, hr⟩ := Reading.exists_walks_of_mem_items h
  have hin := (Reading.sound_start text).cursor.reaches hwalk.reaches
  exact Reading.readIn_item hin x hr t ht

end SolidityCompass
