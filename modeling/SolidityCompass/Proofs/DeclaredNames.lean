import SolidityCompass.Proofs.Lineage
import SolidityCompass.Proofs.Names
import SolidityCompass.Proofs.TableEntries
import SolidityCompass.Symbol.Viewpoint

/-!
# Where the names of a table are declared

Whatever a table lists, whatever its lineages collect and whatever members a chain leads to stands
in one of its lists: inheritance, scopes and bound libraries select declarations and make up none.
So what holds of every name in the lists, together with its file and its range, holds of every
name that is found. `Symbols.EveryName` says that something holds of them. In every table the file
is one of its files, and in a loaded table the name stands in the text of that file.
-/

namespace SolidityCompass

/-- The property holds of every name of a declaration and of its place, a file and a range. -/
def Holds {α : Type} (P : String → Nat × ByteRange → Prop) (namesOf : α → List Name)
    (d : Declared α) : Prop :=
  ∀ name ∈ namesOf d.decl, P name.text (d.home.file, name.range)

structure Symbols.EveryName (P : String → Nat × ByteRange → Prop) (symbols : Symbols) : Prop where
  contract : ∀ c ∈ symbols.contracts, Holds P Contract.names c
  struct : ∀ s ∈ symbols.structs, Holds P Struct.names s
  enum : ∀ e ∈ symbols.enums, Holds P Enum.names e

variable {α : Type} {P : String → Nat × ByteRange → Prop}

theorem Holds.field {s : Declared Struct} (h : Holds P Struct.names s) {v : Variable}
    (hv : v ∈ s.fields) : P v.name (v.file, v.nameRange) := by
  obtain ⟨field, hfield, rfl⟩ := List.mem_map.mp hv
  exact h field.name (List.mem_cons_of_mem _ (List.mem_map_of_mem hfield))

theorem Holds.local {f : Declared Function} (h : Holds P Function.names f) {v : Variable}
    (hv : v ∈ f.locals) : P v.name (v.file, v.nameRange) := by
  obtain ⟨decl, hdecl, rfl⟩ := List.mem_map.mp hv
  refine h decl.name (List.mem_cons_of_mem _ (List.mem_append_right _ ?_))
  exact List.mem_map_of_mem hdecl

/-- A parameter without a name is declared nowhere. -/
theorem Holds.param {f : Declared Function} (h : Holds P Function.names f) {v : Variable}
    (hv : v ∈ f.inputs ++ f.outputs) (hname : v.name ≠ "") : P v.name (v.file, v.nameRange) := by
  obtain ⟨p, role, hp, rfl⟩ : ∃ p role, p ∈ f.decl.params ++ f.decl.returns ∧
      v = Variable.ofParameter role f.decl.name.text f.home.file p := by
    rcases List.mem_append.mp hv with hv | hv
    · obtain ⟨p, hp, rfl⟩ := List.mem_map.mp hv
      exact ⟨p, .parameter, List.mem_append_left _ hp, rfl⟩
    · obtain ⟨p, hp, rfl⟩ := List.mem_map.mp hv
      exact ⟨p, .returned, List.mem_append_right _ hp, rfl⟩
  cases hn : p.name with
  | none => simp [Variable.ofParameter, hn] at hname
  | some name =>
    have hnames : name ∈ f.decl.names := by
      refine List.mem_cons_of_mem _ (List.mem_append_left _ ?_)
      rw [← List.flatMap_append]
      exact List.mem_flatMap.mpr ⟨p, hp, by simp [Parameter.names, hn]⟩
    simpa [Variable.ofParameter, hn] using h name hnames

namespace Symbols.EveryName

variable {symbols : Symbols} (h : symbols.EveryName P) {c : Declared Contract}
  (hc : c ∈ symbols.contracts)

include h hc

theorem member {m : Member} (hm : m ∈ c.decl.members) {name : Name} (hname : name ∈ m.names) :
    P name.text (c.home.file, name.range) :=
  h.contract c hc name (List.mem_cons_of_mem _ (List.mem_flatMap.mpr ⟨m, hm, hname⟩))

theorem of_mem_members {pick : Member → Option α} {namesOf : α → List Name}
    (hpick : ∀ {m : Member} {x : α}, pick m = some x → namesOf x = m.names)
    {d : Declared α} (hd : d ∈ c.members pick) : Holds P namesOf d := by
  intro name hname
  obtain ⟨decl, hdecl, rfl⟩ := List.mem_map.mp hd
  obtain ⟨m, hm, hx⟩ := List.mem_filterMap.mp hdecl
  exact h.member hc hm (hpick hx ▸ hname)

theorem function {f : Declared Function} (hf : f ∈ c.functions) : Holds P Function.names f := by
  refine h.of_mem_members hc (fun {m x} hx => ?_) hf
  cases m <;> simp_all [Member.names]

theorem event {e : Declared Event} (he : e ∈ c.events) : Holds P Event.names e := by
  refine h.of_mem_members hc (fun {m x} hx => ?_) he
  cases m <;> simp_all [Member.names]

theorem memberStruct {s : Declared Struct} (hs : s ∈ c.structs) : Holds P Struct.names s := by
  refine h.of_mem_members hc (fun {m x} hx => ?_) hs
  cases m <;> simp_all [Member.names]

theorem memberEnum {e : Declared Enum} (he : e ∈ c.enums) : Holds P Enum.names e := by
  refine h.of_mem_members hc (fun {m x} hx => ?_) he
  cases m <;> simp_all [Member.names]

theorem stateVariable {v : Variable} (hv : v ∈ c.stateVariables) :
    P v.name (v.file, v.nameRange) := by
  obtain ⟨m, hm, hfound⟩ := List.mem_filterMap.mp hv
  split at hfound
  next decl =>
    cases hfound
    exact h.member hc hm (List.mem_singleton.mpr rfl)
  next => cases hfound

end Symbols.EveryName

namespace Table

variable {table : Table}

theorem mem_inherited {held : Declared Contract → List α} {id : Nat} {x : α}
    (h : x ∈ table.inherited held id) : ∃ c ∈ table.contracts, x ∈ held c := by
  obtain ⟨base, -, c, hc, hx⟩ := mem_inherited_iff_lineage.mp h
  exact ⟨c, List.mem_of_getElem? hc, hx⟩

/-- The place of every name is in a file of the table. -/
theorem everyName_inFile (table : Table) :
    table.EveryName fun _ place => ∃ file, table.files[place.1]? = some file := by
  have hfile : ∀ home ∈ table.homes, ∃ file, table.files[home]? = some file := fun home hhome =>
    ⟨_, List.getElem?_eq_getElem (table.wellFormed.homed home hhome)⟩
  refine ⟨fun c hc _ _ => hfile _ ?_, fun s hs _ _ => hfile _ ?_, fun e he _ _ => hfile _ ?_⟩
  · exact List.mem_append_left _ (List.mem_append_left _ (List.mem_map_of_mem hc))
  · exact List.mem_append_left _ (List.mem_append_right _ (List.mem_map_of_mem hs))
  · exact List.mem_append_right _ (List.mem_map_of_mem he)

/-- The name stands at its place in the text of the file. -/
def Shows (table : Table) (word : String) (place : Nat × ByteRange) : Prop :=
  ∃ file, table.files[place.1]? = some file ∧ Name.StandsIn file.text ⟨word, place.2⟩

theorem Shows.ne_empty {word : String} {place : Nat × ByteRange} (h : table.Shows word place) :
    word ≠ "" := by
  obtain ⟨file, -, hstands⟩ := h
  exact hstands.text_ne_empty

theorem everyName_load (rules : ImportRules) (path : Path) (text : String) :
    (load rules path text).EveryName (load rules path text).Shows := by
  have hread := isRead_load rules path text
  constructor
  case contract =>
    intro c hc name hname
    obtain ⟨file, hfile, hitem⟩ := hread.exists_file_of_contract hc
    exact ⟨file, hfile, standing_outline hitem name hname⟩
  case struct =>
    intro s hs name hname
    obtain ⟨file, hfile, hitem⟩ := hread.exists_file_of_struct hs
    exact ⟨file, hfile, standing_outline hitem name hname⟩
  case enum =>
    intro e he name hname
    obtain ⟨file, hfile, hitem⟩ := hread.exists_file_of_enum he
    exact ⟨file, hfile, standing_outline hitem name hname⟩

end Table

namespace Viewpoint

variable {view : Viewpoint} {target : Target}

def Knows (P : String → Nat × ByteRange → Prop) : Target → Prop
  | .enum e => Holds P Enum.names e
  | _ => True

theorem knows_value (type : TypeRef) : Knows P (.value type) := trivial

theorem knows_applyIndexes {indexes : Nat} {before : Target} (h : Knows P before)
    (ht : applyIndexes indexes before = some target) : Knows P target := by
  unfold applyIndexes at ht
  split at ht
  next =>
    cases ht
    exact h
  next =>
    split at ht
    next =>
      obtain ⟨type, -, rfl⟩ := Option.map_eq_some_iff.mp ht
      trivial
    next => cases ht

def Locates (P : String → Nat × ByteRange → Prop) (m : MemberRef) : Prop :=
  ∀ place, m.location? = some place → P m.name place

theorem locates_function {f : Declared Function} (h : Holds P Function.names f)
    (isExtension : Bool) : Locates P (.function f isExtension) := by
  intro place hplace
  cases hplace
  exact h f.decl.name List.mem_cons_self

theorem locates_variable {v : Variable} (h : P v.name (v.file, v.nameRange)) :
    Locates P (.variable v) := by
  intro place hplace
  cases hplace
  exact h

theorem locates_builtin (b : Builtin) : Locates P (.builtin b) := by
  intro place hplace
  cases hplace

theorem knows_of_lookupCall? {name : String} (h : view.lookupCall? name = some target) :
    Knows P target := by
  unfold lookupCall? at h
  extract_lets overloads at h
  split at h
  · split at h
    · cases h
      trivial
    · split at h
      · cases h
        trivial
      · obtain ⟨id, -, rfl⟩ := Option.map_eq_some_iff.mp h
        trivial
  · obtain ⟨type, -, rfl⟩ := Option.map_eq_some_iff.mp h
    trivial

theorem mem_of_structOf? {type : TypeRef} {s : Declared Struct}
    (h : view.structOf? type = some s) :
    s ∈ view.table.structs ∨ ∃ c ∈ view.table.contracts, s ∈ c.structs := by
  have hlineage {id : Nat} {p : Declared Struct → Bool}
      (hs : (view.table.allStructs id).find? p = some s) :
      ∃ c ∈ view.table.contracts, s ∈ c.structs :=
    Table.mem_inherited (List.mem_of_find?_eq_some hs)
  unfold structOf? at h
  split at h
  next => cases h
  next =>
    dsimp only at h
    split at h
    next id _ => exact Or.inr (hlineage h)
    next =>
      rcases Option.or_eq_some_iff.mp h with h | ⟨-, h⟩
      · rcases Option.or_eq_some_iff.mp h with h | ⟨-, h⟩
        · obtain ⟨id, -, h⟩ := Option.bind_eq_some_iff.mp h
          exact Or.inr (hlineage h)
        · exact Or.inl (List.mem_of_find?_eq_some h)
      · exact Or.inr (List.mem_flatMap.mp (List.mem_of_find?_eq_some h))

section names

variable (hnames : view.table.EveryName P)

include hnames

theorem knows_of_find?_allEnums {id : Nat} {p : Declared Enum → Bool}
    (h : ((view.table.allEnums id).find? p).map .enum = some target) : Knows P target := by
  obtain ⟨e, he, rfl⟩ := Option.map_eq_some_iff.mp h
  obtain ⟨c, hc, hmem⟩ := Table.mem_inherited (List.mem_of_find?_eq_some he)
  exact hnames.memberEnum hc hmem

theorem knows_of_lookupName? {name : String} (h : view.lookupName? name = some target) :
    Knows P target := by
  unfold lookupName? at h
  dsimp only at h
  rcases Option.or_eq_some_iff.mp h with h | ⟨-, h⟩
  · rcases Option.or_eq_some_iff.mp h with h | ⟨-, h⟩
    · rcases Option.or_eq_some_iff.mp h with h | ⟨-, h⟩
      · obtain ⟨v, -, rfl⟩ := Option.map_eq_some_iff.mp h
        trivial
      · obtain ⟨id, -, h⟩ := Option.bind_eq_some_iff.mp h
        rcases Option.or_eq_some_iff.mp h with h | ⟨-, h⟩
        · obtain ⟨v, -, rfl⟩ := Option.map_eq_some_iff.mp h
          trivial
        · exact knows_of_find?_allEnums hnames h
    · obtain ⟨e, he, rfl⟩ := Option.map_eq_some_iff.mp h
      exact hnames.enum e (List.mem_of_find?_eq_some he)
  · obtain ⟨id, -, rfl⟩ := Option.map_eq_some_iff.mp h
    trivial

theorem knows_of_lookupRoot? {access : Access} (h : view.lookupRoot? access = some target) :
    Knows P target := by
  obtain ⟨found, hfound, ht⟩ := Option.bind_eq_some_iff.mp h
  refine knows_applyIndexes ?_ ht
  split at hfound
  · exact knows_of_lookupCall? hfound
  · exact knows_of_lookupName? hnames hfound

theorem knows_of_lookupMember? {id : Nat} {access : Access}
    (h : view.lookupMember? id access = some target) : Knows P target := by
  obtain ⟨found, hfound, ht⟩ := Option.bind_eq_some_iff.mp h
  refine knows_applyIndexes ?_ ht
  split at hfound
  · obtain ⟨type, -, rfl⟩ := Option.map_eq_some_iff.mp hfound
    trivial
  · rcases Option.or_eq_some_iff.mp hfound with hfound | ⟨-, hfound⟩
    · obtain ⟨v, -, rfl⟩ := Option.map_eq_some_iff.mp hfound
      trivial
    · exact knows_of_find?_allEnums hnames hfound

theorem knows_of_lookupInValue? {type : TypeRef} {access : Access}
    (h : view.lookupInValue? type access = some target) : Knows P target := by
  unfold lookupInValue? at h
  split at h
  next s hs =>
    split at h
    next => cases h
    next =>
      obtain ⟨v, -, ht⟩ := Option.bind_eq_some_iff.mp h
      exact knows_applyIndexes (knows_value _) ht
  next =>
    dsimp only at h
    rcases Option.or_eq_some_iff.mp h with h | ⟨-, h⟩
    · obtain ⟨id, -, h⟩ := Option.bind_eq_some_iff.mp h
      exact knows_of_lookupMember? hnames h
    · split at h
      next =>
        obtain ⟨f, -, h⟩ := Option.bind_eq_some_iff.mp h
        obtain ⟨result, -, ht⟩ := Option.bind_eq_some_iff.mp h
        exact knows_applyIndexes (knows_value _) ht
      next => cases h

theorem knows_of_descend? {before : Target} {access : Access}
    (h : view.descend? before access = some target) : Knows P target := by
  unfold descend? at h
  split at h
  · exact knows_of_lookupMember? hnames h
  · exact knows_of_lookupInValue? hnames h
  · cases h
  · cases h

theorem knows_of_foldlM_descend? {before : Target} {accesses : List Access}
    (hbefore : Knows P before) (h : accesses.foldlM view.descend? before = some target) :
    Knows P target := by
  induction accesses generalizing before with
  | nil =>
    cases h
    exact hbefore
  | cons access accesses ih =>
    rw [List.foldlM_cons] at h
    obtain ⟨next, hnext, hrest⟩ := Option.bind_eq_some_iff.mp h
    exact ih (knows_of_descend? hnames hnext) hrest

theorem knows_of_follow? {root : Access} {rest : List Access}
    (h : view.follow? root rest = some target) : Knows P target := by
  obtain ⟨first, hfirst, hrest⟩ := Option.bind_eq_some_iff.mp h
  exact knows_of_foldlM_descend? hnames (knows_of_lookupRoot? hnames hfirst) hrest

theorem knows_of_resolve? {chain : Chain} (h : view.resolve? chain = some target) :
    Knows P target := by
  unfold resolve? at h
  split at h
  · cases h
  · dsimp only at h
    split at h
    next =>
      cases h
      trivial
    next =>
      split at h
      · split at h
        next =>
          obtain ⟨id, -, rfl⟩ := Option.map_eq_some_iff.mp h
          trivial
        next => exact knows_of_follow? hnames h
      · exact knows_of_follow? hnames h

theorem holds_of_structOf? {type : TypeRef} {s : Declared Struct}
    (h : view.structOf? type = some s) : Holds P Struct.names s := by
  rcases mem_of_structOf? h with hs | ⟨c, hc, hs⟩
  · exact hnames.struct s hs
  · exact hnames.memberStruct hc hs

theorem locates_of_mem_contractMembers {id : Nat} {m : MemberRef}
    (h : m ∈ view.contractMembers id) : Locates P m := by
  rcases List.mem_append.mp h with h | h
  · obtain ⟨f, hf, rfl⟩ := List.mem_map.mp h
    obtain ⟨c, hc, hmem⟩ := Table.mem_inherited (List.mem_filter.mp hf).1
    exact locates_function (hnames.function hc hmem) false
  · obtain ⟨v, hv, rfl⟩ := List.mem_map.mp h
    obtain ⟨c, hc, hmem⟩ := Table.mem_inherited hv
    exact locates_variable (hnames.stateVariable hc hmem)

theorem holds_of_mem_extensions {type : TypeRef} {f : Declared Function}
    (h : f ∈ view.extensions type) : Holds P Function.names f := by
  obtain ⟨library, -, hf⟩ := List.mem_flatMap.mp h
  obtain ⟨c, hc, hmem⟩ := Table.mem_inherited (List.mem_filter.mp hf).1
  exact hnames.function hc hmem

theorem locates_of_mem_valueMembers {type : TypeRef} {m : MemberRef}
    (h : m ∈ view.valueMembers type) : Locates P m := by
  unfold valueMembers at h
  simp only [List.mem_append] at h
  rcases h with ((h | h) | h) | h
  · split at h
    next s hs =>
      obtain ⟨v, hv, rfl⟩ := List.mem_map.mp h
      exact locates_variable ((holds_of_structOf? hnames hs).field hv)
    next =>
      cases hid : view.contractOf? type with
      | none => simp [hid] at h
      | some id => exact locates_of_mem_contractMembers hnames (by simpa [hid] using h)
  · split at h
    next =>
      obtain ⟨b, -, rfl⟩ := List.mem_map.mp h
      exact locates_builtin b
    next => simp at h
  · split at h
    next =>
      obtain ⟨b, -, rfl⟩ := List.mem_map.mp h
      exact locates_builtin b
    next => simp at h
  · obtain ⟨f, hf, rfl⟩ := List.mem_map.mp h
    exact locates_function (holds_of_mem_extensions hnames hf) true

theorem locates_of_mem_members {m : MemberRef} (htarget : Knows P target)
    (h : m ∈ view.members target) : Locates P m := by
  cases target with
  | value type => exact locates_of_mem_valueMembers hnames h
  | contract id => exact locates_of_mem_contractMembers hnames h
  | enum e =>
    obtain ⟨value, hvalue, rfl⟩ := List.mem_map.mp h
    intro place hplace
    cases hplace
    exact htarget value (List.mem_cons_of_mem _ hvalue)
  | builtins members =>
    obtain ⟨b, -, rfl⟩ := List.mem_map.mp h
    exact locates_builtin b

theorem locates_of_mem_membersOf {chain : Chain} {m : MemberRef}
    (h : m ∈ view.membersOf chain) : Locates P m := by
  unfold membersOf at h
  cases htarget : view.resolve? chain with
  | none => simp [htarget] at h
  | some target =>
    exact locates_of_mem_members hnames (knows_of_resolve? hnames htarget)
      (by simpa [htarget] using h)

end names

/-- The scope around an offset is that of a function of the table. -/
theorem mem_functions_of_scope {table : Table} {offset : Nat} {scope : Scope}
    (h : (ofOffset table offset).scope = some scope) :
    (∃ c ∈ table.contracts, scope.function ∈ c.functions) ∧
      scope.locals ⊆ scope.function.locals := by
  obtain ⟨id, -, h⟩ := Option.bind_eq_some_iff.mp h
  obtain ⟨c, hc, h⟩ := Option.bind_eq_some_iff.mp h
  obtain ⟨f, hf, h⟩ := Option.bind_eq_some_iff.mp h
  unfold Scope.at? at h
  split at h
  next =>
    cases h
    exact ⟨⟨c, List.mem_of_getElem? hc, List.mem_of_find?_eq_some hf⟩,
      List.filter_sublist.subset⟩
  next => cases h

end Viewpoint

end SolidityCompass
