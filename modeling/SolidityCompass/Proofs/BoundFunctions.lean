import Mathlib.Data.List.Dedup
import Mathlib.Data.Set.Card
import SolidityCompass.Proofs.Concatenation
import SolidityCompass.Proofs.GrowingScopes
import SolidityCompass.Symbol.Viewpoint

/-!
# Functions bound to a type

A function is offered on a type because a directive binds a library to the type and the function
stands in the lineage of that library. `Viewpoint.Binds` and `Table.Offers` say so by reachability
through base lists, without the order in which lineages are walked. How often a function is offered
is then the number of libraries that bring it: a library counts once however many directives bind
it, and it brings a function once, since no two functions of a table stand at the same place.
-/

namespace SolidityCompass

section lists

variable {α β : Type}

theorem nodup_eraseDups [BEq α] [LawfulBEq α] (xs : List α) : xs.eraseDups.Nodup := by
  induction hn : xs.length using Nat.strong_induction_on generalizing xs with
  | h n ih =>
    cases xs with
    | nil => simp
    | cons x xs =>
      rw [List.eraseDups_cons, List.nodup_cons]
      have hshorter : (xs.filter fun y => !y == x).length < n := by
        rw [← hn, List.length_cons]
        exact Nat.lt_succ_of_le (List.length_filter_le _ _)
      exact ⟨by simp [List.mem_eraseDups], ih _ hshorter _ rfl⟩

/-- Where no part holds anything twice, a member is counted once for each part that holds it. -/
theorem count_flatMap_of_nodup [DecidableEq β] {xs : List α} {part : α → List β}
    (h : ∀ x ∈ xs, (part x).Nodup) (y : β) :
    (xs.flatMap part).count y = (xs.filter fun x => decide (y ∈ part x)).length := by
  induction xs with
  | nil => rfl
  | cons x xs ih =>
    have hrest := ih fun z hz => h z (List.mem_cons_of_mem _ hz)
    rw [List.flatMap_cons, List.count_append, hrest, (h x List.mem_cons_self).count]
    by_cases hx : y ∈ part x
    · rw [if_pos hx, List.filter_cons_of_pos (by simpa using hx), List.length_cons, Nat.add_comm]
    · rw [if_neg hx, List.filter_cons_of_neg (by simpa using hx), Nat.zero_add]

theorem flatMap_filterMap {γ : Type} (f : α → Option β) (part : β → List γ) (xs : List α) :
    (xs.filterMap f).flatMap part = xs.flatMap fun x => ((f x).map part).getD [] := by
  induction xs with
  | nil => rfl
  | cons x xs ih => cases h : f x <;> simp [h, ih]

end lists

namespace Table

variable {table : Table} {α : Type}

section lineage

def Carries (table : Table) (held : Declared Contract → List α) (id : Nat) (x : α) : Prop :=
  ∃ base c, Relation.ReflTransGen table.Inherits id base ∧ table.contracts[base]? = some c ∧
    x ∈ held c

theorem mem_inherited_iff {held : Declared Contract → List α} {id : Nat} {x : α}
    (hid : id < table.contracts.length) :
    x ∈ table.inherited held id ↔ table.Carries held id x := by
  rw [mem_inherited_iff_lineage, Carries]
  simp only [mem_lineage_iff hid, exists_and_left]

theorem nodup_inherited {held : Declared Contract → List α}
    (hnodup : ∀ c ∈ table.contracts, (held c).Nodup)
    (hdisjoint : table.contracts.Pairwise fun c d => (held c).Disjoint (held d)) (id : Nat) :
    (table.inherited held id).Nodup := by
  have hlineage : (table.lineage id).Nodup := nodup_walk List.nodup_range
  refine List.nodup_flatMap.mpr ⟨fun base _ => ?_, hlineage.imp fun {i j} hij => ?_⟩
  · cases hc : table.contracts[base]? with
    | none => exact List.nodup_nil
    | some c => exact hnodup c (List.mem_of_getElem? hc)
  · intro x hi hj
    cases hc : table.contracts[i]? with
    | none => simp [hc] at hi
    | some c =>
      cases hd : table.contracts[j]? with
      | none => simp [hd] at hj
      | some d =>
        obtain ⟨hilt, rfl⟩ := List.getElem?_eq_some_iff.mp hc
        obtain ⟨hjlt, rfl⟩ := List.getElem?_eq_some_iff.mp hd
        simp only [hc, hd, Option.map_some, Option.getD_some] at hi hj
        rcases Nat.lt_or_gt_of_ne hij with hlt | hlt
        · exact List.pairwise_iff_getElem.mp hdisjoint i j hilt hjlt hlt hi hj
        · exact List.pairwise_iff_getElem.mp hdisjoint j i hjlt hilt hlt hj hi

end lineage

end Table

section places

variable {symbols : Symbols} {rules : ImportRules}

/-- The contracts of a table stand behind each other, in the order of files and texts. -/
theorem Symbols.IsRead.pairwise_contracts (h : symbols.IsRead rules) :
    symbols.contracts.Pairwise fun c d => c.home.file < d.home.file ∨
      c.home.file = d.home.file ∧ c.decl.range.stop ≤ d.decl.range.start := by
  rw [h.contracts]
  refine List.pairwise_filterMap.mpr (symbols.pairwise_before_entries.imp ?_)
  intro a b hab c hc d hd
  obtain ⟨x, hx, rfl⟩ := Option.map_eq_some_iff.mp hc
  obtain ⟨y, hy, rfl⟩ := Option.map_eq_some_iff.mp hd
  cases ha : a.item <;> simp [ha, Item.contract?] at hx
  cases hb : b.item <;> simp [hb, Item.contract?] at hy
  subst hx hy
  simpa [Entry.Before, ha, hb, Item.tree, Contract.tree, RangeTree.range] using hab

theorem Symbols.IsRead.exists_text_of_mem_contracts (h : symbols.IsRead rules)
    {c : Declared Contract} (hc : c ∈ symbols.contracts) :
    ∃ text, c.decl ∈ (readOutline text).outline.contracts := by
  obtain ⟨file, -, hitem⟩ := h.exists_file_of_contract hc
  exact ⟨file.text, Outline.mem_contracts.mpr hitem⟩

theorem function_range_lt {text : String} {c : Declared Contract} {f : Declared Function}
    (hc : c.decl ∈ (readOutline text).outline.contracts) (hf : f ∈ c.functions) :
    f.decl.range.start < f.decl.range.stop := by
  have hdecl := Declared.decl_mem_of_mem_functions hf
  have hname := (standing_of_mem_members hc hdecl f.decl.name List.mem_cons_self).range_lt
  obtain ⟨hstart, hstop, -⟩ := (row_of_mem_members hc hdecl).of_mem List.mem_cons_self
  omega

theorem nodup_functions {text : String} {c : Declared Contract}
    (hc : c.decl ∈ (readOutline text).outline.contracts) : c.functions.Nodup := by
  have hordered : c.functions.Pairwise fun f g => f.decl.range.stop ≤ g.decl.range.start := by
    rw [Declared.functions_eq]
    exact List.pairwise_map.mpr (pairwise_functions hc)
  refine hordered.imp_of_mem ?_
  rintro f g hf - hfg rfl
  exact absurd (function_range_lt hc hf) hfg.not_gt

/-- No function stands in two contracts of a table. -/
theorem Symbols.IsRead.pairwise_disjoint_functions (h : symbols.IsRead rules) :
    symbols.contracts.Pairwise fun c d => c.functions.Disjoint d.functions := by
  refine h.pairwise_contracts.imp_of_mem ?_
  intro c d hc hd hcd f hfc hfd
  have hhome : c.home.file = d.home.file := by
    rw [Declared.functions_eq] at hfc hfd
    obtain ⟨_, -, rfl⟩ := List.mem_map.mp hfc
    obtain ⟨_, -, heq⟩ := List.mem_map.mp hfd
    exact (congrArg (fun g => g.home.file) heq).symm
  obtain ⟨-, hbehind⟩ := hcd.resolve_left (by omega)
  obtain ⟨text, htext⟩ := h.exists_text_of_mem_contracts hc
  obtain ⟨text', htext'⟩ := h.exists_text_of_mem_contracts hd
  have hlt := function_range_lt htext hfc
  have hstop := (function_within_contract htext (Declared.decl_mem_of_mem_functions hfc)).2
  have hstart := (function_within_contract htext' (Declared.decl_mem_of_mem_functions hfd)).1
  omega

theorem Table.nodup_allFunctions {table : Table} (h : table.IsRead rules) (id : Nat) :
    (table.allFunctions id).Nodup := by
  refine nodup_inherited (fun c hc => ?_) h.pairwise_disjoint_functions id
  obtain ⟨text, htext⟩ := h.exists_text_of_mem_contracts hc
  exact nodup_functions htext

end places

namespace Table

variable {table : Table} {α : Type}

section libraries

variable {type : TypeRef} {library : String} {f : Declared Function}

/-- The library is known, and in its lineage stands the function, which can be called by its name
and takes a value of the type first. -/
def Offers (table : Table) (type : TypeRef) (library : String) (f : Declared Function) : Prop :=
  ∃ id, table.contractNamed? library = some id ∧ table.Carries Declared.functions id f ∧
    f.isCallable = true ∧ ∃ first, f.inputs.head? = some first ∧ first.type.agrees type = true

def offered (table : Table) (type : TypeRef) (library : String) : List (Declared Function) :=
  ((table.contractNamed? library).map fun id => (table.allFunctions id).filter fun f =>
    f.isCallable && f.inputs.head?.any fun first => first.type.agrees type).getD []

theorem mem_offered_iff : f ∈ table.offered type library ↔ table.Offers type library f := by
  unfold offered Offers
  cases hid : table.contractNamed? library with
  | none => simp
  | some id =>
    obtain ⟨c, hc, -⟩ := (table.contractNamed?_eq_some_iff library id).mp hid
    have hlt := (List.getElem?_eq_some_iff.mp hc).1
    simp only [Option.map_some, Option.getD_some, List.mem_filter, allFunctions,
      mem_inherited_iff hlt, Bool.and_eq_true, Option.any_eq_true, Option.some.injEq,
      exists_eq_left']

theorem nodup_offered {rules : ImportRules} (h : table.IsRead rules) (type : TypeRef)
    (library : String) :
    (table.offered type library).Nodup := by
  unfold offered
  cases table.contractNamed? library with
  | none => exact List.nodup_nil
  | some id => exact (nodup_allFunctions h id).filter _

end libraries

section repetition

variable {other : Table} {u : Using}

/-- The second contract is the first one, or has one directive more among its members. -/
inductive Repeats (u : Using) : Declared Contract → Declared Contract → Prop
  | same (c : Declared Contract) : Repeats u c c
  | again {c : Declared Contract} {front back : List Member}
    (hmembers : c.decl.members = front ++ back) :
    Repeats u c ⟨{ c.decl with members := front ++ .usingFor u :: back }, c.home⟩

/-- The second table has the contracts of the first one, some of them with the directive once more
than before. -/
def RepeatsUsing (table : Table) (u : Using) (other : Table) : Prop :=
  List.Forall₂ (Repeats u) table.contracts other.contracts

theorem Repeats.functions_eq {c d : Declared Contract} (h : Repeats u c d) :
    d.functions = c.functions := by
  cases h with
  | same => rfl
  | again hmembers =>
    simp [Declared.functions_eq, Contract.functions, hmembers, List.filterMap_append]

theorem Repeats.mem_bindings_iff {c d : Declared Contract} (h : Repeats u c d)
    {binding : Binding} (hlibrary : binding.library ≠ u.library) :
    binding ∈ d.bindings ↔ binding ∈ c.bindings := by
  cases h with
  | same => rfl
  | again hmembers =>
    have hne : binding ≠ .ofUsing u := fun heq => hlibrary (congrArg Binding.library heq)
    simp [Declared.bindings, hmembers, List.filterMap_append, hne]

theorem Repeats.bindings_subset {c d : Declared Contract} (h : Repeats u c d) :
    c.bindings ⊆ d.bindings := by
  cases h with
  | same => exact List.Subset.refl _
  | again hmembers =>
    intro binding hbinding
    simp only [Declared.bindings, hmembers, List.filterMap_append, List.filterMap_cons,
      List.mem_append, List.mem_cons] at hbinding ⊢
    tauto

theorem RepeatsUsing.map_eq {β : Type} (h : table.RepeatsUsing u other)
    {g : Declared Contract → β} (hg : ∀ {c d}, Repeats u c d → g d = g c) :
    other.contracts.map g = table.contracts.map g := by
  unfold RepeatsUsing at h
  generalize table.contracts = cs, other.contracts = ds at h ⊢
  induction h with
  | nil => rfl
  | cons hcd _ ih => rw [List.map_cons, List.map_cons, hg hcd, ih]

theorem RepeatsUsing.getElem? (h : table.RepeatsUsing u other) (id : Nat) :
    (table.contracts[id]? = none ∧ other.contracts[id]? = none) ∨
      ∃ c d, table.contracts[id]? = some c ∧ other.contracts[id]? = some d ∧ Repeats u c d := by
  obtain ⟨hlength, hrepeats⟩ := List.forall₂_iff_get.mp h
  by_cases hid : id < table.contracts.length
  · have hid' : id < other.contracts.length := hlength ▸ hid
    exact Or.inr ⟨_, _, List.getElem?_eq_getElem hid, List.getElem?_eq_getElem hid',
      hrepeats id hid hid'⟩
  · have hle := Nat.le_of_not_lt hid
    exact Or.inl ⟨List.getElem?_eq_none hle, List.getElem?_eq_none (hlength ▸ hle)⟩

theorem contractNamed?_eq_findIdx?_map (table : Table) (name : String) :
    table.contractNamed? name =
      (table.contracts.map fun c => c.decl.name.text).findIdx? (· = name) := by
  rw [contractNamed?_eq_findIdx?, List.findIdx?_map]
  rfl

theorem basesOf_eq_map (table : Table) (id : Nat) :
    table.basesOf id =
      ((table.contracts.map fun c => c.decl.bases)[id]?.getD []).filterMap
        table.contractNamed? := by
  rw [basesOf, List.getElem?_map]
  cases table.contracts[id]? <;> rfl

theorem inherited_eq_map (table : Table) (held : Declared Contract → List α) (id : Nat) :
    table.inherited held id =
      (table.lineage id).flatMap fun base => (table.contracts.map held)[base]?.getD [] := by
  simp only [inherited, List.getElem?_map]

/-- A directive changes neither names nor lineages nor what contracts hold besides directives. -/
theorem RepeatsUsing.contractNamed?_eq (h : table.RepeatsUsing u other) :
    other.contractNamed? = table.contractNamed? := by
  funext name
  rw [contractNamed?_eq_findIdx?_map, contractNamed?_eq_findIdx?_map, h.map_eq]
  rintro c d (_ | _) <;> rfl

theorem RepeatsUsing.lineage_eq (h : table.RepeatsUsing u other) :
    other.lineage = table.lineage := by
  have hbases : other.basesOf = table.basesOf := by
    funext id
    rw [basesOf_eq_map, basesOf_eq_map, h.contractNamed?_eq, h.map_eq]
    rintro c d (_ | _) <;> rfl
  funext id
  rw [lineage, lineage, hbases, ← List.Forall₂.length_eq h]

theorem RepeatsUsing.offered_eq (h : table.RepeatsUsing u other) :
    other.offered = table.offered := by
  have hfunctions : other.allFunctions = table.allFunctions := by
    funext id
    rw [allFunctions, allFunctions, inherited_eq_map, inherited_eq_map, h.lineage_eq,
      h.map_eq Repeats.functions_eq]
  funext type library
  rw [offered, offered, h.contractNamed?_eq, hfunctions]

theorem RepeatsUsing.mem_allBindings_iff (h : table.RepeatsUsing u other) {id : Nat}
    {binding : Binding} (hlibrary : binding.library ≠ u.library) :
    binding ∈ other.allBindings id ↔ binding ∈ table.allBindings id := by
  rw [allBindings, allBindings, mem_inherited_iff_lineage, mem_inherited_iff_lineage, h.lineage_eq]
  refine exists_congr fun base => and_congr_right fun _ => ?_
  rcases h.getElem? base with ⟨hc, hd⟩ | ⟨c, d, hc, hd, hrepeats⟩
  · simp [hc, hd]
  · simp [hc, hd, hrepeats.mem_bindings_iff hlibrary]

theorem RepeatsUsing.allBindings_subset (h : table.RepeatsUsing u other) (id : Nat) :
    table.allBindings id ⊆ other.allBindings id := by
  intro binding hbinding
  rw [allBindings, mem_inherited_iff_lineage] at hbinding ⊢
  obtain ⟨base, hbase, c, hc, hmem⟩ := hbinding
  rw [h.lineage_eq]
  rcases h.getElem? base with ⟨hnone, -⟩ | ⟨_, d, hc', hd, hrepeats⟩
  · rw [hc] at hnone
    cases hnone
  · obtain rfl := Option.some.inj (hc.symm.trans hc')
    exact ⟨base, hbase, d, hd, hrepeats.bindings_subset hmem⟩

end repetition

end Table

namespace Viewpoint

variable {view : Viewpoint} {type : TypeRef} {library : String} {f : Declared Function}

/-- A directive in the lineage of the selected contract binds the library to the type. -/
def Binds (view : Viewpoint) (type : TypeRef) (library : String) : Prop :=
  ∃ id binding, view.selected = some id ∧ view.table.Carries Declared.bindings id binding ∧
    binding.appliesTo type = true ∧ binding.library = library

theorem nodup_boundLibraries (view : Viewpoint) (type : TypeRef) :
    (view.boundLibraries type).Nodup := by
  unfold boundLibraries
  split
  · exact List.nodup_nil
  · exact nodup_eraseDups _

theorem mem_boundLibraries_iff_inherited :
    library ∈ view.boundLibraries type ↔ ∃ id, view.selected = some id ∧
      ∃ binding ∈ view.table.allBindings id, binding.appliesTo type = true ∧
        binding.library = library := by
  unfold boundLibraries
  cases view.selected with
  | none => simp
  | some id => simp [List.mem_eraseDups, and_assoc]

theorem extensions_eq_flatMap (view : Viewpoint) (type : TypeRef) :
    view.extensions type = (view.boundLibraries type).flatMap (view.table.offered type) :=
  flatMap_filterMap _ _ _

theorem mem_extensions_iff : f ∈ view.extensions type ↔
    ∃ library ∈ view.boundLibraries type, view.table.Offers type library f := by
  rw [extensions_eq_flatMap, List.mem_flatMap]
  simp only [Table.mem_offered_iff]

/-- A function is counted once for each library that brings it. -/
theorem count_extensions (view : Viewpoint) {rules : ImportRules}
    (hread : view.table.IsRead rules) (type : TypeRef) (f : Declared Function) :
    ((view.extensions type).count f : ENat) =
      {library | library ∈ view.boundLibraries type ∧
        view.table.Offers type library f}.encard := by
  have hcount := count_flatMap_of_nodup
    (fun library (_ : library ∈ view.boundLibraries type) =>
      Table.nodup_offered hread type library) f
  have hset : {library | library ∈ view.boundLibraries type ∧
      view.table.Offers type library f} =
      ((view.boundLibraries type).filter fun library =>
        decide (f ∈ view.table.offered type library)).toFinset := by
    ext library
    simp [Table.mem_offered_iff]
  rw [extensions_eq_flatMap, hcount, hset, Set.encard_coe_eq_coe_finsetCard,
    List.toFinset_card_of_nodup ((view.nodup_boundLibraries type).filter _)]

theorem extensions_perm_of_repeats {other : Viewpoint} {u : Using}
    (hselected : other.selected = view.selected)
    (hrepeats : view.table.RepeatsUsing u other.table)
    (hbound : u.library ∈ view.boundLibraries type) :
    (other.extensions type).Perm (view.extensions type) := by
  have hlibraries : (other.boundLibraries type).Perm (view.boundLibraries type) := by
    rw [List.perm_ext_iff_of_nodup (other.nodup_boundLibraries type)
      (view.nodup_boundLibraries type)]
    intro library
    constructor
    · intro hlibrary
      obtain ⟨id, hid, binding, hbinding, happlies, rfl⟩ :=
        mem_boundLibraries_iff_inherited.mp hlibrary
      by_cases hsame : binding.library = u.library
      · exact hsame ▸ hbound
      · exact mem_boundLibraries_iff_inherited.mpr ⟨id, hselected ▸ hid, binding,
          (hrepeats.mem_allBindings_iff hsame).mp hbinding, happlies, rfl⟩
    · intro hlibrary
      obtain ⟨id, hid, binding, hbinding, happlies, rfl⟩ :=
        mem_boundLibraries_iff_inherited.mp hlibrary
      exact mem_boundLibraries_iff_inherited.mpr ⟨id, hselected.trans hid, binding,
        hrepeats.allBindings_subset id hbinding, happlies, rfl⟩
  rw [extensions_eq_flatMap, extensions_eq_flatMap, hrepeats.offered_eq]
  exact hlibraries.flatMap_right _

theorem mem_boundLibraries_ofOffset_iff (table : Table) (offset : Nat) :
    library ∈ (ofOffset table offset).boundLibraries type ↔
      (ofOffset table offset).Binds type library := by
  rw [mem_boundLibraries_iff_inherited, Binds]
  refine exists_congr fun id => ?_
  constructor
  · rintro ⟨hid, binding, hbinding, hbinds⟩
    obtain ⟨hlt, -⟩ := List.findIdx?_eq_some_iff_getElem.mp hid
    exact ⟨binding, hid, (Table.mem_inherited_iff hlt).mp hbinding, hbinds⟩
  · rintro ⟨binding, hid, hbinding, hbinds⟩
    obtain ⟨hlt, -⟩ := List.findIdx?_eq_some_iff_getElem.mp hid
    exact ⟨hid, binding, (Table.mem_inherited_iff hlt).mpr hbinding, hbinds⟩

/-- The functions offered on a type are those that a library offers which some directive in the
lineage of the selected contract binds to the type. In a table that is read from texts, each of
them is offered as often as there are such libraries. To write a directive again for a library that
is bound already, in whatever contracts and for whatever type, changes neither. -/
theorem extensions_offered_by_bound_libraries (table : Table) (offset : Nat) (type : TypeRef) :
    let view := ofOffset table offset
    (∀ f, f ∈ view.extensions type ↔
      ∃ library, view.Binds type library ∧ table.Offers type library f) ∧
      (∀ rules, table.IsRead rules → ∀ f, ((view.extensions type).count f : ENat) =
        {library | view.Binds type library ∧ table.Offers type library f}.encard) ∧
      ∀ u (other : Viewpoint), view.Binds type u.library → other.selected = view.selected →
        table.RepeatsUsing u other.table → (other.extensions type).Perm (view.extensions type) := by
  intro view
  refine ⟨fun f => ?_, fun rules hread f => ?_, fun u other hbinds hselected hrepeats => ?_⟩
  · simp only [mem_extensions_iff, view, mem_boundLibraries_ofOffset_iff]
    rfl
  · have hcount := view.count_extensions hread type f
    simp only [view, mem_boundLibraries_ofOffset_iff] at hcount
    exact hcount
  · refine extensions_perm_of_repeats hselected hrepeats ?_
    exact (mem_boundLibraries_ofOffset_iff table offset).mpr hbinds

def nestedLibraries : String :=
  "library K \x7b function f(uint a) \x7b \x7d \x7d library L is K \x7b \x7d " ++
    "contract A \x7b using L for uint; \x7d " ++
    "contract B is A \x7b using K for *; using L for uint; \x7d"

def nestedFunction : Function :=
  ⟨.function, ⟨"f", ⟨21, 22⟩⟩, [⟨.named "uint", none, some ⟨"a", ⟨28, 29⟩⟩, ⟨23, 29⟩⟩], [],
    some ⟨⟨31, 34⟩, []⟩, ⟨12, 34⟩⟩

def nestedOffer : Declared Function := ⟨nestedFunction, ⟨0, some "K"⟩⟩

def innerLibrary : Contract :=
  ⟨.library, false, ⟨"K", ⟨8, 9⟩⟩, [], [.function nestedFunction], ⟨0, 36⟩⟩

def outerLibrary : Contract := ⟨.library, false, ⟨"L", ⟨45, 46⟩⟩, ["K"], [], ⟨37, 55⟩⟩

def parentUser : Contract :=
  ⟨.contract, false, ⟨"A", ⟨65, 66⟩⟩, [], [.usingFor ⟨"L", some (.named "uint"), ⟨69, 86⟩⟩],
    ⟨56, 88⟩⟩

def heirUser : Contract :=
  ⟨.contract, false, ⟨"B", ⟨98, 99⟩⟩, ["A"],
    [.usingFor ⟨"K", none, ⟨107, 121⟩⟩, .usingFor ⟨"L", some (.named "uint"), ⟨122, 139⟩⟩],
    ⟨89, 141⟩⟩

/-- The function of the first library is offered twice, once for each library. -/
theorem extensions_offered_of_nestedLibraries :
    let table := Table.load default ⟨"/p/B.sol"⟩ nestedLibraries
    table.IsRead default ∧ ∃ f : Declared Function, f.decl.name.text = "f" ∧
      f ∈ (ofOffset table 110).extensions (.named "uint" false) ∧
      2 ≤ (((ofOffset table 110).extensions (.named "uint" false)).count f : ENat) := by
  intro table
  have hcontracts : table.contracts =
      [⟨innerLibrary, ⟨0, none⟩⟩, ⟨outerLibrary, ⟨0, none⟩⟩, ⟨parentUser, ⟨0, none⟩⟩,
        ⟨heirUser, ⟨0, none⟩⟩] := by decide +kernel
  have hread : table.IsRead default := Table.isRead_load _ _ _
  -- The rest is read off the contracts: the text is read once.
  clear_value table
  have hselected : (ofOffset table 110).selected = some 3 := by
    change table.contractAt? 110 = some 3
    rw [Table.contractAt?, hcontracts]
    decide
  have hname (name : String) : table.contractNamed? name =
      ["K", "L", "A", "B"].findIdx? (· = name) := by
    rw [Table.contractNamed?_eq_findIdx?_map, hcontracts]
    rfl
  have hbase : table.Inherits 3 2 := by
    rw [← Table.mem_basesOf_iff, Table.basesOf_eq_map, funext hname, hcontracts]
    decide
  have hlibrary : table.Inherits 1 0 := by
    rw [← Table.mem_basesOf_iff, Table.basesOf_eq_map, funext hname, hcontracts]
    decide
  have hoffers {library : String} {id : Nat} (hid : table.contractNamed? library = some id)
      (hbelow : Relation.ReflTransGen table.Inherits id 0) :
      table.Offers (.named "uint" false) library nestedOffer := by
    have hheld : table.Carries Declared.functions id nestedOffer :=
      ⟨0, ⟨innerLibrary, ⟨0, none⟩⟩, hbelow, by simp [hcontracts], by decide⟩
    exact ⟨id, hid, hheld, by decide, _, rfl, by decide⟩
  have hK : (ofOffset table 110).Binds (.named "uint" false) "K" ∧
      table.Offers (.named "uint" false) "K" nestedOffer := by
    have hheld : table.Carries Declared.bindings 3 ⟨"K", none⟩ :=
      ⟨3, ⟨heirUser, ⟨0, none⟩⟩, .refl, by simp [hcontracts], by decide⟩
    exact ⟨⟨3, _, hselected, hheld, by decide, rfl⟩, hoffers (hname "K") .refl⟩
  have hL : (ofOffset table 110).Binds (.named "uint" false) "L" ∧
      table.Offers (.named "uint" false) "L" nestedOffer := by
    have hheld : table.Carries Declared.bindings 3 ⟨"L", some (.named "uint" false)⟩ :=
      ⟨2, ⟨parentUser, ⟨0, none⟩⟩, .single hbase, by simp [hcontracts], by decide⟩
    exact ⟨⟨3, _, hselected, hheld, by decide, rfl⟩, hoffers (hname "L") (.single hlibrary)⟩
  obtain ⟨hmem, hcount, -⟩ :=
    extensions_offered_by_bound_libraries table 110 (.named "uint" false)
  refine ⟨hread, nestedOffer, rfl, (hmem _).mpr ⟨"K", hK⟩, ?_⟩
  rw [hcount default hread, ← Set.encard_pair (show "K" ≠ "L" by decide)]
  apply Set.encard_le_encard
  rintro library (rfl | rfl)
  · exact hK
  · exact hL

end Viewpoint

end SolidityCompass
