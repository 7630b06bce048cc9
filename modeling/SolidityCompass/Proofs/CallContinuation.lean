import SolidityCompass.Symbol.Loading
import SolidityCompass.Symbol.Viewpoint

/-!
# Offered calls can be continued

What a target offers and how a chain goes on from it are decided by two separate case analyses. They
agree on calls: if a target other than a struct value offers a function with one result, as a member
of its own or as the first extension of the name, then the chain goes on with a call of it. Struct
values offer extensions too, but chains go on from them through their fields alone.
-/

namespace SolidityCompass

def Chain.call (chain : Chain) (name : String) : Chain :=
  ⟨chain.root, chain.rest ++ [⟨name, .call, 0⟩]⟩

theorem Chain.last_call (chain : Chain) (name : String) :
    (chain.call name).last = ⟨name, .call, 0⟩ := by
  simp [call, last]

def MemberRef.isExtension : MemberRef → Bool
  | .function _ isExtension => isExtension
  | _ => false

/-- Without base lists a contract has only its own members. -/
theorem Table.inherited_of_no_bases {α : Type} {table : Table}
    (h : ∀ c ∈ table.contracts, c.decl.bases = []) (held : Declared Contract → List α) (id : Nat) :
    table.inherited held id = ((table.contracts[id]?).map held).getD [] := by
  have hbases : table.basesOf id = [] := by
    unfold basesOf
    split
    next c hc => rw [h c (List.mem_of_getElem? hc), List.filterMap_nil]
    next => rfl
  by_cases hid : id < table.contracts.length
  · have hlineage : table.lineage id = [id] := by
      simp [lineage, walk, hbases, hid]
    simp [inherited, hlineage]
  · have hlineage : table.lineage id = [] := by
      simp [lineage, walk, hid]
    have hnone : table.contracts[id]? = none := List.getElem?_eq_none (by omega)
    simp [inherited, hlineage, hnone]

namespace Viewpoint

variable {view : Viewpoint} {chain : Chain} {target : Target} {name : String} {type : TypeRef}
  {f : Declared Function} {isExtension : Bool}

/-- What a chain means, global namespaces left aside. -/
def meaning? (view : Viewpoint) (chain : Chain) : Option Target :=
  if chain.root.name = "this" && chain.root.isVariable then
    match chain.rest with
    | [] => view.selected.map .contract
    | next :: rest => view.follow? next rest
  else view.follow? chain.root chain.rest

theorem meaning?_of_resolve? (h : view.resolve? chain = some target) :
    (∃ members, target = .builtins members) ∨ view.meaning? chain = some target := by
  unfold resolve? at h
  split at h
  next => cases h
  next =>
    dsimp only at h
    split at h
    next members _ =>
      cases h
      exact Or.inl ⟨members, rfl⟩
    next => exact Or.inr h

/-- A call never stands for a global namespace. -/
theorem resolve?_call (view : Viewpoint) (chain : Chain) (hname : name ≠ "") :
    view.resolve? (chain.call name) = view.meaning? (chain.call name) := by
  have hblank : (chain.call name).isBlank = false := by
    simp [Chain.isBlank, chain.last_call, hname]
  simp only [resolve?, hblank, chain.last_call, Access.isVariable]
  rfl

theorem follow?_concat (view : Viewpoint) (root : Access) (rest : List Access) (access : Access) :
    view.follow? root (rest ++ [access]) =
      (view.follow? root rest).bind fun target => view.descend? target access := by
  simp [follow?, List.foldlM_append, Option.bind_assoc]

/-- A chain goes on with a call from its target. Only `this` alone is passed over, so that a call
after it is one at the root. -/
theorem meaning?_call (name : String) (h : view.meaning? chain = some target) :
    view.meaning? (chain.call name) = view.descend? target ⟨name, .call, 0⟩ ∨
      ∃ id, view.selected = some id ∧ target = .contract id ∧
        view.meaning? (chain.call name) = view.lookupRoot? ⟨name, .call, 0⟩ := by
  by_cases hthis : (chain.root.name = "this" && chain.root.isVariable) = true
  · have hcall : view.meaning? (chain.call name) =
        match chain.rest ++ [⟨name, .call, 0⟩] with
        | [] => view.selected.map .contract
        | next :: rest => view.follow? next rest := if_pos hthis
    rw [meaning?, if_pos hthis] at h
    rw [hcall]
    cases hrest : chain.rest with
    | nil =>
      rw [hrest] at h
      obtain ⟨id, hid, rfl⟩ := Option.map_eq_some_iff.mp h
      exact Or.inr ⟨id, hid, rfl, by simp [follow?]⟩
    | cons next rest =>
      rw [hrest] at h
      exact Or.inl (by simp [follow?_concat, h])
  · have hcall : view.meaning? (chain.call name) =
        view.follow? chain.root (chain.rest ++ [⟨name, .call, 0⟩]) := if_neg hthis
    rw [meaning?, if_neg hthis] at h
    rw [hcall, follow?_concat, h]
    exact Or.inl rfl

/-- The first function of a name with one result decides, whichever function with one result there
is. -/
theorem exists_findSome?_result {fs : List (Declared Function)} (hf : f ∈ fs)
    (hresult : f.result?.isSome) :
    ∃ type, (fs.filter fun g => g.decl.name.text = f.decl.name.text).findSome? Declared.result? =
      some type := by
  refine Option.isSome_iff_exists.mp (List.findSome?_isSome_iff.mpr ⟨f, ?_, hresult⟩)
  exact List.mem_filter.mpr ⟨hf, by simp⟩

@[simp] theorem applyIndexes_zero : applyIndexes 0 = some := rfl

theorem exists_lookupRoot?_call {id : Nat} (hselected : view.selected = some id)
    (hf : f ∈ view.table.allFunctions id) (hresult : f.result?.isSome) :
    ∃ type, view.lookupRoot? ⟨f.decl.name.text, .call, 0⟩ = some (.value type) := by
  obtain ⟨type, htype⟩ := exists_findSome?_result hf hresult
  have hne : ((view.table.allFunctions id).filter fun g =>
      g.decl.name.text = f.decl.name.text) ≠ [] :=
    List.ne_nil_of_mem (List.mem_filter.mpr ⟨hf, by simp⟩)
  refine ⟨type, ?_⟩
  simp [lookupRoot?, Access.isCall, lookupCall?, hselected, htype, hne]

theorem lookupMember?_call (view : Viewpoint) (id : Nat) (name : String) :
    view.lookupMember? id ⟨name, .call, 0⟩ =
      (((view.table.allFunctions id).filter fun g => g.decl.name.text = name).findSome?
        Declared.result?).map .value := by
  simp [lookupMember?, Access.isCall]

theorem exists_lookupMember?_call {id : Nat} (hf : f ∈ view.table.allFunctions id)
    (hresult : f.result?.isSome) :
    ∃ type, view.lookupMember? id ⟨f.decl.name.text, .call, 0⟩ = some (.value type) := by
  obtain ⟨type, htype⟩ := exists_findSome?_result hf hresult
  exact ⟨type, by rw [lookupMember?_call, htype, Option.map_some]⟩

theorem lookupInValue?_call_of_struct {s : Declared Struct} (h : view.structOf? type = some s)
    (name : String) : view.lookupInValue? type ⟨name, .call, 0⟩ = none := by
  simp [lookupInValue?, h, Access.isCall]

theorem lookupInValue?_call (h : view.structOf? type = none) (name : String) :
    view.lookupInValue? type ⟨name, .call, 0⟩ =
      ((view.contractOf? type).bind fun id => view.lookupMember? id ⟨name, .call, 0⟩).or
        (((view.extensions type).find? fun g => g.decl.name.text = name).bind fun g =>
          g.result?.map .value) := by
  simp only [lookupInValue?, h, Access.isCall, decide_true, if_true, applyIndexes_zero,
    Option.map_eq_bind]
  rfl

theorem mem_allFunctions_of_contractMembers {id : Nat}
    (h : .function f isExtension ∈ view.contractMembers id) : f ∈ view.table.allFunctions id := by
  rcases List.mem_append.mp h with h | h
  · obtain ⟨g, hg, heq⟩ := List.mem_map.mp h
    cases heq
    exact (List.mem_filter.mp hg).1
  · obtain ⟨v, -, heq⟩ := List.mem_map.mp h
    cases heq

theorem isExtension_of_mem_contractMembers {id : Nat} {m : MemberRef}
    (h : m ∈ view.contractMembers id) : m.isExtension = false := by
  rcases List.mem_append.mp h with h | h
  · obtain ⟨g, -, rfl⟩ := List.mem_map.mp h
    rfl
  · obtain ⟨v, -, rfl⟩ := List.mem_map.mp h
    rfl

/-- Outside of structs a function that a value offers is one of its contract or an extension. -/
theorem mem_valueMembers_function (hstruct : view.structOf? type = none)
    (h : .function f isExtension ∈ view.valueMembers type) :
    (∃ id, view.contractOf? type = some id ∧ .function f isExtension ∈ view.contractMembers id) ∨
      isExtension = true ∧ f ∈ view.extensions type := by
  simp only [valueMembers, hstruct, List.mem_append] at h
  rcases h with ((h | h) | h) | h
  · cases hid : view.contractOf? type with
    | none => simp [hid] at h
    | some id => exact Or.inl ⟨id, rfl, by simpa [hid] using h⟩
  · split at h <;> simp at h
  · split at h <;> simp at h
  · obtain ⟨g, hg, heq⟩ := List.mem_map.mp h
    cases heq
    exact Or.inr ⟨rfl, hg⟩

/-- The extensions come last among the members of a value. -/
theorem exists_valueMembers_eq (view : Viewpoint) (type : TypeRef) :
    ∃ front, view.valueMembers type = front ++ (view.extensions type).map (.function · true) ∧
      ∀ m ∈ front, m.isExtension = false := by
  refine ⟨_, rfl, fun m hm => ?_⟩
  simp only [List.mem_append] at hm
  rcases hm with (hm | hm) | hm
  · split at hm
    next =>
      obtain ⟨v, -, rfl⟩ := List.mem_map.mp hm
      rfl
    next =>
      cases hid : view.contractOf? type with
      | none => simp [hid] at hm
      | some id => exact isExtension_of_mem_contractMembers (by simpa [hid] using hm)
  · split at hm
    next =>
      obtain ⟨b, -, rfl⟩ := List.mem_map.mp hm
      rfl
    next => cases hm
  · split at hm
    next =>
      obtain ⟨b, -, rfl⟩ := List.mem_map.mp hm
      rfl
    next => cases hm

theorem find?_extension_valueMembers (view : Viewpoint) (type : TypeRef) (name : String) :
    (view.valueMembers type).find? (fun m => m.isExtension && m.name = name) =
      ((view.extensions type).find? fun g => g.decl.name.text = name).map (.function · true) := by
  obtain ⟨front, hmembers, hfront⟩ := view.exists_valueMembers_eq type
  have hnone : front.find? (fun m => m.isExtension && m.name = name) = none := by
    rw [List.find?_eq_none]
    intro m hm
    simp [hfront m hm]
  rw [hmembers, List.find?_append, hnone, Option.none_or, List.find?_map]
  rfl

/-- Outside of structs a value that offers a function with one result goes on with a call of it,
where an extension has to be the first of its name. -/
theorem exists_lookupInValue?_call (hstruct : view.structOf? type = none)
    (hmem : .function f isExtension ∈ view.valueMembers type)
    (hfirst : isExtension = true → (view.valueMembers type).find?
      (fun m => m.isExtension && m.name = f.decl.name.text) = some (.function f true))
    (hresult : f.result?.isSome) :
    ∃ result, view.lookupInValue? type ⟨f.decl.name.text, .call, 0⟩ = some (.value result) := by
  rw [lookupInValue?_call hstruct]
  rcases mem_valueMembers_function hstruct hmem with ⟨id, hid, hown⟩ | ⟨hextension, hf⟩
  · obtain ⟨result, hresult⟩ :=
      exists_lookupMember?_call (mem_allFunctions_of_contractMembers hown) hresult
    exact ⟨result, by rw [hid, Option.bind_some, hresult, Option.some_or]⟩
  · have hfind := hfirst hextension
    rw [find?_extension_valueMembers] at hfind
    obtain ⟨g, hg, heq⟩ := Option.map_eq_some_iff.mp hfind
    cases heq
    obtain ⟨result, hresult⟩ := Option.isSome_iff_exists.mp hresult
    rw [hg, Option.bind_some, hresult, Option.map_some]
    -- A function of the contract may come before the extension.
    cases hid : view.contractOf? type with
    | none => exact ⟨result, rfl⟩
    | some id =>
      rw [Option.bind_some, lookupMember?_call]
      cases ((view.table.allFunctions id).filter fun g =>
          g.decl.name.text = f.decl.name.text).findSome? Declared.result? with
      | none => exact ⟨result, rfl⟩
      | some own => exact ⟨own, rfl⟩

theorem exists_descend?_call
    (hstruct : ∀ type, target = .value type → view.structOf? type = none)
    (hmem : .function f isExtension ∈ view.members target)
    (hfirst : isExtension = true → (view.members target).find?
      (fun m => m.isExtension && m.name = f.decl.name.text) = some (.function f true))
    (hresult : f.result?.isSome) :
    ∃ result, view.descend? target ⟨f.decl.name.text, .call, 0⟩ = some (.value result) := by
  cases target with
  | value type => exact exists_lookupInValue?_call (hstruct type rfl) hmem hfirst hresult
  | contract id =>
    exact exists_lookupMember?_call (mem_allFunctions_of_contractMembers hmem) hresult
  | enum e =>
    obtain ⟨value, -, heq⟩ := List.mem_map.mp hmem
    cases heq
  | builtins members =>
    obtain ⟨b, -, heq⟩ := List.mem_map.mp hmem
    cases heq

/-- If a chain leads to a target other than a struct value, and the target offers a function with
one result, then the chain goes on with a call of it. An extension has to be the first one of its
name. -/
theorem exists_resolve?_call (table : Table) (offset : Nat) (chain : Chain) (target : Target)
    (f : Declared Function) (isExtension : Bool)
    (htarget : (ofOffset table offset).resolve? chain = some target)
    (hstruct : ∀ type, target = .value type → (ofOffset table offset).structOf? type = none)
    (hmem : .function f isExtension ∈ (ofOffset table offset).members target)
    (hfirst : isExtension = true → ((ofOffset table offset).members target).find?
      (fun m => m.isExtension && m.name = f.decl.name.text) = some (.function f true))
    (hname : f.decl.name.text ≠ "") (hresult : f.result?.isSome) :
    ∃ result, (ofOffset table offset).resolve? (chain.call f.decl.name.text) =
      some (.value result) := by
  rw [resolve?_call _ _ hname]
  rcases meaning?_of_resolve? htarget with ⟨members, rfl⟩ | hmeaning
  · obtain ⟨b, -, heq⟩ := List.mem_map.mp hmem
    cases heq
  · rcases meaning?_call f.decl.name.text hmeaning with hcall | ⟨id, hselected, rfl, hcall⟩
    · rw [hcall]
      exact exists_descend?_call hstruct hmem hfirst hresult
    · rw [hcall]
      exact exists_lookupRoot?_call hselected (mem_allFunctions_of_contractMembers hmem) hresult

def boundNumber : String :=
  "library L \x7b function twice(uint a) returns (uint) \x7b \x7d \x7d " ++
    "contract C \x7b using L for uint; uint x; \x7d"

def boundNumberTwice : Declared Function where
  decl := ⟨.function, ⟨"twice", ⟨21, 26⟩⟩,
    [⟨.named "uint", none, some ⟨"a", ⟨32, 33⟩⟩, ⟨27, 33⟩⟩],
    [⟨.named "uint", none, none, ⟨44, 48⟩⟩], some ⟨⟨50, 53⟩, []⟩, ⟨12, 53⟩⟩
  home := ⟨0, some "L"⟩

def boundNumberLibrary : Contract :=
  ⟨.library, false, ⟨"L", ⟨8, 9⟩⟩, [], [.function boundNumberTwice.decl], ⟨0, 55⟩⟩

def boundNumberUser : Contract :=
  ⟨.contract, false, ⟨"C", ⟨65, 66⟩⟩, [],
    [.usingFor ⟨"L", some (.named "uint"), ⟨69, 86⟩⟩,
      .variable ⟨.named "uint", ⟨"x", ⟨92, 93⟩⟩, ⟨87, 94⟩⟩], ⟨56, 96⟩⟩

def boundNumberTable : Table where
  toSymbols := Symbols.empty.addContract ⟨boundNumberLibrary, ⟨0, none⟩⟩
    |>.addContract ⟨boundNumberUser, ⟨0, none⟩⟩ |>.addFile ⟨0, ⟨"/p/C.sol"⟩, boundNumber⟩
  wellFormed := ⟨Symbols.wellFormed_empty.indexed.addContract _ |>.addContract _ |>.addFile _,
    by decide⟩

theorem exists_resolve?_call_of_boundNumber :
    let view := ofOffset (Table.load default ⟨"/p/C.sol"⟩ boundNumber) 69
    ∃ f, view.members (.value (.named "uint" false)) = [.function f true] ∧
      f.decl.name.text = "twice" ∧ f.result?.isSome ∧
      view.resolve? ⟨⟨"x", .variable, 0⟩, []⟩ = some (.value (.named "uint" false)) ∧
      ∃ result, view.resolve? (Chain.call ⟨⟨"x", .variable, 0⟩, []⟩ "twice") =
        some (.value result) := by
  have hload : Table.load default ⟨"/p/C.sol"⟩ boundNumber = boundNumberTable := by decide +kernel
  rw [hload]
  intro view
  have hbases : ∀ c ∈ view.table.contracts, c.decl.bases = [] := by decide +kernel
  have hchain : view.resolve? ⟨⟨"x", .variable, 0⟩, []⟩ = some (.value (.named "uint" false)) := by
    simp only [resolve?, follow?, lookupRoot?, lookupName?, Table.allStateVariables,
      Table.inherited_of_no_bases hbases]
    decide +kernel
  have hstruct : view.structOf? (.named "uint" false) = none := by
    simp only [structOf?, Table.allStructs, Table.inherited_of_no_bases hbases]
    decide +kernel
  have hextensions : view.extensions (.named "uint" false) = [boundNumberTwice] := by
    simp only [extensions, boundLibraries, Table.allBindings, Table.allFunctions,
      Table.inherited_of_no_bases hbases]
    decide +kernel
  have hmembers :
      view.members (.value (.named "uint" false)) = [.function boundNumberTwice true] := by
    simp only [members, valueMembers, hstruct, hextensions]
    decide +kernel
  refine ⟨boundNumberTwice, hmembers, rfl, rfl, hchain, ?_⟩
  refine exists_resolve?_call _ 69 _ _ boundNumberTwice true hchain ?_ ?_ ?_ (by decide) rfl
  · intro type htype
    cases htype
    exact hstruct
  · rw [hmembers]
    exact List.mem_cons_self
  · intro _
    rw [hmembers]
    rfl

/-- A call on a struct value leads nowhere. -/
theorem resolve?_call_of_struct {s : Declared Struct} (hname : name ≠ "")
    (h : view.resolve? chain = some (.value type)) (hstruct : view.structOf? type = some s) :
    view.resolve? (chain.call name) = none := by
  rw [resolve?_call _ _ hname]
  rcases meaning?_of_resolve? h with ⟨members, hmembers⟩ | hmeaning
  · cases hmembers
  · rcases meaning?_call name hmeaning with hcall | ⟨id, -, hcontract, -⟩
    · rw [hcall]
      exact lookupInValue?_call_of_struct hstruct name
    · cases hcontract

def boundStruct : String :=
  "library L \x7b function f(S memory s) internal returns (uint) \x7b \x7d \x7d " ++
    "struct S \x7b uint a; \x7d contract C \x7b using L for S; S s; \x7d"

def boundStructFunction : Declared Function where
  decl := ⟨.function, ⟨"f", ⟨21, 22⟩⟩,
    [⟨.named "S", some .memory, some ⟨"s", ⟨32, 33⟩⟩, ⟨23, 33⟩⟩],
    [⟨.named "uint", none, none, ⟨53, 57⟩⟩], some ⟨⟨59, 62⟩, []⟩, ⟨12, 62⟩⟩
  home := ⟨0, some "L"⟩

def boundStructLibrary : Contract :=
  ⟨.library, false, ⟨"L", ⟨8, 9⟩⟩, [], [.function boundStructFunction.decl], ⟨0, 64⟩⟩

def boundStructFields : Struct :=
  ⟨⟨"S", ⟨72, 73⟩⟩, [⟨.named "uint", ⟨"a", ⟨81, 82⟩⟩⟩], ⟨65, 85⟩⟩

def boundStructUser : Contract :=
  ⟨.contract, false, ⟨"C", ⟨95, 96⟩⟩, [],
    [.usingFor ⟨"L", some (.named "S"), ⟨99, 113⟩⟩,
      .variable ⟨.named "S", ⟨"s", ⟨116, 117⟩⟩, ⟨114, 118⟩⟩], ⟨86, 120⟩⟩

def boundStructTable : Table where
  toSymbols := Symbols.empty.addContract ⟨boundStructLibrary, ⟨0, none⟩⟩
    |>.addStruct ⟨boundStructFields, ⟨0, none⟩⟩
    |>.addContract ⟨boundStructUser, ⟨0, none⟩⟩ |>.addFile ⟨0, ⟨"/p/C.sol"⟩, boundStruct⟩
  wellFormed := ⟨Symbols.wellFormed_empty.indexed.addContract _ |>.addStruct _
    |>.addContract _ |>.addFile _, by decide⟩

/-- The function is offered on a value of the struct, and the chain does not go on with it. -/
theorem resolve?_call_of_boundStruct :
    let view := ofOffset (Table.load default ⟨"/p/C.sol"⟩ boundStruct) 99
    ∃ f, view.resolve? ⟨⟨"s", .variable, 0⟩, []⟩ = some (.value (.named "S" false)) ∧
      .function f true ∈ view.members (.value (.named "S" false)) ∧
      f.decl.name.text = "f" ∧ f.result?.isSome ∧
      view.resolve? (Chain.call ⟨⟨"s", .variable, 0⟩, []⟩ "f") = none := by
  have hload : Table.load default ⟨"/p/C.sol"⟩ boundStruct = boundStructTable := by decide +kernel
  rw [hload]
  intro view
  have hbases : ∀ c ∈ view.table.contracts, c.decl.bases = [] := by decide +kernel
  have hchain : view.resolve? ⟨⟨"s", .variable, 0⟩, []⟩ = some (.value (.named "S" false)) := by
    simp only [resolve?, follow?, lookupRoot?, lookupName?, Table.allStateVariables,
      Table.inherited_of_no_bases hbases]
    decide +kernel
  have hstruct : (view.structOf? (.named "S" false)).isSome := by
    simp only [structOf?, Table.allStructs, Table.inherited_of_no_bases hbases]
    decide +kernel
  have hextensions : view.extensions (.named "S" false) = [boundStructFunction] := by
    simp only [extensions, boundLibraries, Table.allBindings, Table.allFunctions,
      Table.inherited_of_no_bases hbases]
    decide +kernel
  obtain ⟨s, hs⟩ := Option.isSome_iff_exists.mp hstruct
  refine ⟨boundStructFunction, hchain, ?_, rfl, rfl, resolve?_call_of_struct (by decide) hchain hs⟩
  simp [members, valueMembers, hextensions]

end Viewpoint

end SolidityCompass
