import SolidityCompass.Editor.Completion
import SolidityCompass.Proofs.Definitions

/-!
# Suggested names are known

Plain completion, definitions of bare names and the roots of chains each list what is known at an
offset in an order of their own and stop at different points. Still, whatever completion suggests
there has a definition, and a suggested variable, enum or contract is the root of a chain. What is
hidden by another declaration of its name leads to that one.
-/

namespace SolidityCompass

namespace Definition

variable {table : Table} {offset : Nat}

theorem firstFound_ne_nil {α : Type} {lists : List (List α)} {found : List α}
    (hfound : found ∈ lists) (h : found ≠ []) : firstFound lists ≠ [] := by
  induction lists with
  | nil => cases hfound
  | cons first rest ih =>
    rw [firstFound]
    split
    next hempty =>
      rcases List.mem_cons.mp hfound with rfl | hrest
      · exact absurd (List.isEmpty_iff.mp hempty) h
      · exact ih hrest
    next hempty => simpa using hempty

theorem located_ne_nil {α : Type} (name : α → Name) {ds : List (Declared α)} {d : Declared α}
    (h : d ∈ ds) : ds.filterMap (located? (name d.decl).text name) ≠ [] :=
  List.ne_nil_of_mem (List.mem_filterMap.mpr ⟨d, h, if_pos rfl⟩)

theorem locatedVariables_ne_nil {vs : List Variable} {v : Variable} (h : v ∈ vs) :
    vs.filterMap (locatedVariable? v.name) ≠ [] :=
  List.ne_nil_of_mem (List.mem_filterMap.mpr ⟨v, h, if_pos rfl⟩)

theorem rootLocations_ne_nil_of_scope {scope : Scope}
    (hscope : (Viewpoint.ofOffset table offset).scope = some scope) {v : Variable}
    (hv : v ∈ scope.visible) : rootLocations table offset v.name ≠ [] := by
  refine firstFound_ne_nil List.mem_cons_self ?_
  rw [hscope]
  exact locatedVariables_ne_nil hv

theorem rootLocations_ne_nil_of_lineage {id : Nat} {word : String}
    (hselected : (Viewpoint.ofOffset table offset).selected = some id)
    (h : lineageLocations table id word ≠ []) : rootLocations table offset word ≠ [] := by
  refine firstFound_ne_nil (List.mem_of_getElem? (i := 1) rfl) ?_
  rw [hselected]
  exact h

theorem rootLocations_ne_nil_of_contracts {c : Declared Contract} (hc : c ∈ table.contracts) :
    rootLocations table offset c.decl.name.text ≠ [] := by
  refine firstFound_ne_nil (List.mem_of_getElem? (i := 2) rfl) ?_
  exact located_ne_nil Contract.name hc

theorem rootLocations_ne_nil_of_structs {s : Declared Struct} (hs : s ∈ table.structs) :
    rootLocations table offset s.decl.name.text ≠ [] := by
  refine firstFound_ne_nil (List.mem_of_getElem? (i := 3) rfl) ?_
  exact List.append_ne_nil_of_left_ne_nil (located_ne_nil Struct.name hs) _

theorem rootLocations_ne_nil_of_enums {e : Declared Enum} (he : e ∈ table.enums) :
    rootLocations table offset e.decl.name.text ≠ [] := by
  refine firstFound_ne_nil (List.mem_of_getElem? (i := 3) rfl) ?_
  exact List.append_ne_nil_of_right_ne_nil _ (located_ne_nil Enum.name he)

end Definition

namespace Viewpoint

variable {view : Viewpoint} {name : String}

theorem isSome_lookupName?_of_scope {scope : Scope} (hscope : view.scope = some scope)
    {v : Variable} (hv : v ∈ scope.visible) : (view.lookupName? v.name).isSome := by
  have hfind : (scope.find? v.name).isSome := List.find?_isSome.mpr ⟨v, hv, by simp⟩
  simp [lookupName?, hscope, hfind]

section lineage

variable {id : Nat} (hselected : view.selected = some id)
include hselected

theorem isSome_lookupName?_of_stateVariables {v : Variable}
    (hv : v ∈ view.table.allStateVariables id) : (view.lookupName? v.name).isSome := by
  have hfind : ((view.table.allStateVariables id).find? fun w => w.name = v.name).isSome :=
    List.find?_isSome.mpr ⟨v, hv, by simp⟩
  simp [lookupName?, hselected, hfind]

theorem isSome_lookupName?_of_lineageEnums {e : Declared Enum}
    (he : e ∈ view.table.allEnums id) : (view.lookupName? e.decl.name.text).isSome := by
  have hfind : ((view.table.allEnums id).find? fun other =>
      other.decl.name.text = e.decl.name.text).isSome := List.find?_isSome.mpr ⟨e, he, by simp⟩
  simp [lookupName?, hselected, hfind]

end lineage

theorem isSome_lookupName?_of_enums {e : Declared Enum} (he : e ∈ view.table.enums) :
    (view.lookupName? e.decl.name.text).isSome := by
  have hfind : (view.table.enums.find? fun other =>
      other.decl.name.text = e.decl.name.text).isSome := List.find?_isSome.mpr ⟨e, he, by simp⟩
  simp [lookupName?, hfind]

theorem isSome_lookupName?_of_contracts {c : Declared Contract} (hc : c ∈ view.table.contracts) :
    (view.lookupName? c.decl.name.text).isSome := by
  have hfind : (view.table.contractNamed? c.decl.name.text).isSome := by
    rw [Table.contractNamed?_eq_findIdx?, List.findIdx?_isSome]
    exact List.any_eq_true.mpr ⟨c, hc, by simp⟩
  simp [lookupName?, hfind]

/-- A bare name is a chain that means what the name means, unless it is `this` or stands for a
global namespace. -/
theorem isSome_resolve?_of_lookupName? (hname : name ≠ "") (hthis : name ≠ "this")
    (h : (view.lookupName? name).isSome) :
    (view.resolve? ⟨⟨name, .variable, 0⟩, []⟩).isSome := by
  obtain ⟨target, htarget⟩ := Option.isSome_iff_exists.mp h
  have hfollow : view.follow? ⟨name, .variable, 0⟩ [] = some target := by
    simp [follow?, lookupRoot?, Access.isCall, htarget, applyIndexes]
  have hblank : Chain.isBlank ⟨⟨name, .variable, 0⟩, []⟩ = false := by
    simp [Chain.isBlank, Chain.last, hname]
  simp only [resolve?, hblank, Bool.false_eq_true, if_false]
  split
  · rfl
  · simp [hthis, hfollow]

end Viewpoint

namespace Completion

variable {table : Table} {offset : Nat} {s : Suggestion}

def rootKinds : List ItemKind :=
  [.field, .variable, .enum, .contract, .interface]

/-- Definitions know the label of a suggestion, and if it is that of a variable, an enum or a
contract, then so does the lookup of names. -/
def Knows (table : Table) (offset : Nat) (s : Suggestion) : Prop :=
  Definition.rootLocations table offset s.label ≠ [] ∧
    (s.kind ∈ rootKinds → ((Viewpoint.ofOffset table offset).lookupName? s.label).isSome)

theorem knows_of_mem_ofLineage {id : Nat}
    (hselected : (Viewpoint.ofOffset table offset).selected = some id)
    (h : s ∈ ofLineage table id) : Knows table offset s := by
  simp only [ofLineage, List.mem_append, List.mem_map] at h
  rcases h with (((⟨f, hf, rfl⟩ | ⟨e, he, rfl⟩) | ⟨v, hv, rfl⟩) | ⟨d, hd, rfl⟩) | ⟨e, he, rfl⟩
  · refine ⟨Definition.rootLocations_ne_nil_of_lineage hselected ?_, ?_⟩
    · have hne := Definition.located_ne_nil Function.name (List.mem_filter.mp hf).1
      simp [Definition.lineageLocations, Suggestion.ofFunction, hne]
    · simp [rootKinds, Suggestion.ofFunction]
  · refine ⟨Definition.rootLocations_ne_nil_of_lineage hselected ?_, ?_⟩
    · have hne := Definition.located_ne_nil Event.name he
      simp [Definition.lineageLocations, Suggestion.ofEvent, hne]
    · simp [rootKinds, Suggestion.ofEvent]
  · refine ⟨Definition.rootLocations_ne_nil_of_lineage hselected ?_, fun _ => ?_⟩
    · have hne := Definition.locatedVariables_ne_nil hv
      simp [Definition.lineageLocations, Suggestion.ofField, Suggestion.ofVariable, hne]
    · exact Viewpoint.isSome_lookupName?_of_stateVariables hselected hv
  · refine ⟨Definition.rootLocations_ne_nil_of_lineage hselected ?_, ?_⟩
    · have hne := Definition.located_ne_nil Struct.name hd
      simp [Definition.lineageLocations, Suggestion.ofStruct, hne]
    · simp [rootKinds, Suggestion.ofStruct]
  · refine ⟨Definition.rootLocations_ne_nil_of_lineage hselected ?_, fun _ => ?_⟩
    · have hne := Definition.located_ne_nil Enum.name he
      simp [Definition.lineageLocations, Suggestion.ofEnum, hne]
    · exact Viewpoint.isSome_lookupName?_of_lineageEnums hselected he

theorem knows_of_visible {scope : Scope}
    (hscope : (Viewpoint.ofOffset table offset).scope = some scope) {v : Variable}
    (hv : v ∈ scope.visible) (kind : ItemKind) (owner : String) :
    Knows table offset (.ofVariable kind owner v) :=
  ⟨Definition.rootLocations_ne_nil_of_scope hscope hv,
    fun _ => Viewpoint.isSome_lookupName?_of_scope hscope hv⟩

/-- A parameter is suggested only if it has a name, and a local always has one. -/
theorem knows_of_mem_ofScope {scope : Scope}
    (hscope : (Viewpoint.ofOffset table offset).scope = some scope)
    (hlocals : ∀ v ∈ scope.locals, v.name ≠ "") (h : s ∈ ofScope scope) :
    Knows table offset s := by
  rcases List.mem_append.mp h with h | h
  · obtain ⟨v, hv, rfl⟩ := List.mem_map.mp h
    obtain ⟨hmem, hname⟩ := List.mem_filter.mp hv
    refine knows_of_visible hscope (List.mem_filter.mpr ⟨?_, hname⟩) _ _
    rw [List.append_assoc]
    exact List.mem_append_right _ hmem
  · obtain ⟨v, hv, rfl⟩ := List.mem_map.mp h
    refine knows_of_visible hscope (List.mem_filter.mpr ⟨?_, by simpa using hlocals v hv⟩) _ _
    rw [List.append_assoc]
    exact List.mem_append_left _ (List.mem_reverse.mpr hv)

/-- Everything that is suggested is known, if the locals around the offset have names. -/
theorem knows_of_mem_plain
    (hlocals : ∀ scope, (Viewpoint.ofOffset table offset).scope = some scope →
      ∀ v ∈ scope.locals, v.name ≠ "")
    (h : s ∈ plain table offset) : Knows table offset s := by
  simp only [plain, List.mem_append] at h
  rcases h with (((h | h) | h) | h) | h
  · cases hselected : (Viewpoint.ofOffset table offset).selected with
    | none => simp [hselected] at h
    | some id => exact knows_of_mem_ofLineage hselected (by simpa [hselected] using h)
  · cases hscope : (Viewpoint.ofOffset table offset).scope with
    | none => simp [hscope] at h
    | some scope =>
      exact knows_of_mem_ofScope hscope (hlocals scope hscope) (by simpa [hscope] using h)
  · obtain ⟨c, hc, rfl⟩ := List.mem_map.mp h
    exact ⟨Definition.rootLocations_ne_nil_of_contracts hc,
      fun _ => Viewpoint.isSome_lookupName?_of_contracts hc⟩
  · obtain ⟨d, hd, rfl⟩ := List.mem_map.mp h
    refine ⟨Definition.rootLocations_ne_nil_of_structs hd, ?_⟩
    simp [rootKinds, Suggestion.ofStruct]
  · obtain ⟨e, he, rfl⟩ := List.mem_map.mp h
    exact ⟨Definition.rootLocations_ne_nil_of_enums he,
      fun _ => Viewpoint.isSome_lookupName?_of_enums he⟩

/-- In a loaded table every plain suggestion has a definition under its label, and the label of a
variable, an enum or a contract other than `this` is a chain that can be resolved. -/
theorem definition_and_chain_of_mem_plain (rules : ImportRules) (path : Path) (text : String)
    (offset : Nat) (s : Suggestion) (hs : s ∈ plain (.load rules path text) offset) :
    Definition.rootLocations (.load rules path text) offset s.label ≠ [] ∧
      (s.kind ∈ rootKinds → s.label ≠ "this" →
        ((Viewpoint.ofOffset (.load rules path text) offset).resolve?
          ⟨⟨s.label, .variable, 0⟩, []⟩).isSome) := by
  have hnames := Table.everyName_load rules path text
  have hlocals : ∀ scope, (Viewpoint.ofOffset (.load rules path text) offset).scope = some scope →
      ∀ v ∈ scope.locals, v.name ≠ "" := by
    intro scope hscope v hv
    obtain ⟨⟨c, hc, hf⟩, hsubset⟩ := Viewpoint.mem_functions_of_scope hscope
    exact ((hnames.function hc hf).local (hsubset hv)).ne_empty
  obtain ⟨hlocations, hlookup⟩ := knows_of_mem_plain hlocals hs
  obtain ⟨place, hplace⟩ := List.exists_mem_of_ne_nil _ hlocations
  have hlabel : s.label ≠ "" := (Definition.name_of_mem_rootLocations hnames hplace).ne_empty
  exact ⟨hlocations, fun hkind hthis =>
    Viewpoint.isSome_resolve?_of_lookupName? hlabel hthis (hlookup hkind)⟩

def shadowed : String :=
  "contract C \x7b uint total; function f() \x7b bool total;  \x7d \x7d"

def shadowedTotal : Suggestion :=
  ⟨"total", .field, some "(function variable in C) bool total", none, none⟩

theorem definition_and_chain_of_shadowed :
    let table := Table.load default ⟨"/p/C.sol"⟩ shadowed
    ∃ s ∈ plain table 54, s.label = "total" ∧ s.kind = .field ∧
      Definition.rootLocations table 54 "total" ≠ [] ∧
      ((Viewpoint.ofOffset table 54).resolve? ⟨⟨"total", .variable, 0⟩, []⟩).isSome := by
  intro table
  have hscope : shadowedTotal ∈ ((Viewpoint.ofOffset table 54).scope.map ofScope).getD [] := by
    decide +kernel
  have hs : shadowedTotal ∈ plain table 54 := by
    simp only [plain, List.mem_append]
    exact Or.inl (Or.inl (Or.inl (Or.inr hscope)))
  obtain ⟨hlocations, hchain⟩ :=
    definition_and_chain_of_mem_plain default ⟨"/p/C.sol"⟩ shadowed 54 shadowedTotal hs
  exact ⟨shadowedTotal, hs, rfl, rfl, hlocations, hchain (by decide) (by decide)⟩

end Completion

end SolidityCompass
