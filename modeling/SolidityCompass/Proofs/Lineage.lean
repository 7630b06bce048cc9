import Mathlib.Data.List.Basic
import Mathlib.Logic.Relation
import SolidityCompass.Symbol.Lineage
import SolidityCompass.Symbol.Loading

/-!
# Lineages are recursive preorder walks

`Table.preorder` is the walk that a reader has in mind: a contract, then the walks of its bases
in the order of its base list, each base looked up by name, and nothing for a base that no
contract has or that was visited before. `Table.lineage` finds the same list with a stack on
which visited and repeated contracts may wait. The stack stands for the recursive calls that are
still to be made: `walk_eq_preorderAll` carries this through the walk.
-/

namespace SolidityCompass

section walk

variable {next : Nat → List Nat} {fresh stack : List Nat}

theorem mem_fresh_of_mem_walk {x : Nat} (h : x ∈ walk next fresh stack) : x ∈ fresh := by
  fun_induction walk next fresh stack with
  | case1 => simp at h
  | case2 fresh node stack hnode ih =>
    rcases List.mem_cons.mp h with rfl | h
    · exact hnode
    · exact List.mem_of_mem_erase (ih h)
  | case3 fresh node stack hnode ih => exact ih h

theorem nodup_walk (hfresh : fresh.Nodup) : (walk next fresh stack).Nodup := by
  fun_induction walk next fresh stack with
  | case1 => exact List.nodup_nil
  | case2 fresh node stack hnode ih =>
    have hrest := ih (hfresh.erase node)
    refine List.nodup_cons.mpr ⟨fun hmem => ?_, hrest⟩
    exact hfresh.not_mem_erase (mem_fresh_of_mem_walk hmem)
  | case3 fresh node stack hnode ih => exact ih hfresh

theorem mem_walk_of_mem_stack {x : Nat} (hx : x ∈ stack) (hfresh : x ∈ fresh) :
    x ∈ walk next fresh stack := by
  fun_induction walk next fresh stack with
  | case1 => simp at hx
  | case2 fresh node stack hnode ih =>
    by_cases hxn : x = node
    · exact hxn ▸ List.mem_cons_self
    · have hstack : x ∈ stack := (List.mem_cons.mp hx).resolve_left hxn
      exact List.mem_cons_of_mem _ (ih (List.mem_append_right _ hstack)
        ((List.mem_erase_of_ne hxn).mpr hfresh))
  | case3 fresh node stack hnode ih =>
    rcases List.mem_cons.mp hx with rfl | hx
    · exact absurd hfresh hnode
    · exact ih hx hfresh

/-- What a visited node leads to is visited too, unless it was visited before the walk. -/
theorem mem_walk_of_next {x y : Nat} (hx : x ∈ walk next fresh stack) (hy : y ∈ next x)
    (hfresh : y ∈ fresh) : y ∈ walk next fresh stack := by
  fun_induction walk next fresh stack with
  | case1 => simp at hx
  | case2 fresh node stack hnode ih =>
    by_cases hyn : y = node
    · exact hyn ▸ List.mem_cons_self
    · have hy' : y ∈ fresh.erase node := (List.mem_erase_of_ne hyn).mpr hfresh
      apply List.mem_cons_of_mem
      rcases List.mem_cons.mp hx with rfl | hx
      · apply mem_walk_of_mem_stack _ hy'
        exact List.mem_append_left _ (List.mem_filter.mpr ⟨hy, by simpa using hy'⟩)
      · exact ih hx hy'
  | case3 fresh node stack hnode ih => exact ih hx hfresh

theorem reached_of_mem_walk {x : Nat} (h : x ∈ walk next fresh stack) :
    ∃ s ∈ stack, Relation.ReflTransGen (fun a b => b ∈ next a) s x := by
  fun_induction walk next fresh stack with
  | case1 => simp at h
  | case2 fresh node stack hnode ih =>
    rcases List.mem_cons.mp h with rfl | h
    · exact ⟨x, List.mem_cons_self, .refl⟩
    · obtain ⟨s, hs, hpath⟩ := ih h
      rcases List.mem_append.mp hs with hs | hs
      · exact ⟨node, List.mem_cons_self, .head (List.mem_filter.mp hs).1 hpath⟩
      · exact ⟨s, List.mem_cons_of_mem _ hs, hpath⟩
  | case3 fresh node stack hnode ih =>
    obtain ⟨s, hs, hpath⟩ := ih h
    exact ⟨s, List.mem_cons_of_mem _ hs, hpath⟩

end walk

namespace Table

/-- Contract `b` is a base of contract `a`: a name of the base list of `a` is the name of `b`,
and no contract in front of `b` has that name. -/
def Inherits (table : Table) (a b : Nat) : Prop :=
  ∃ derived base, table.contracts[a]? = some derived ∧ table.contracts[b]? = some base ∧
    base.decl.name.text ∈ derived.decl.bases ∧
    ∀ i < b, ∀ earlier, table.contracts[i]? = some earlier →
      earlier.decl.name.text ≠ base.decl.name.text

def unvisited (table : Table) (visited : List Nat) : List Nat :=
  (List.range table.contracts.length).filter (fun id => decide (id ∉ visited))

theorem unvisited_append (table : Table) (visited more : List Nat) :
    table.unvisited (visited ++ more) =
      (table.unvisited visited).filter (fun id => decide (id ∉ more)) := by
  unfold unvisited
  rw [List.filter_filter]
  congr 1
  funext id
  simp [Bool.and_comm]

theorem length_unvisited_append_le (table : Table) (visited more : List Nat) :
    (table.unvisited (visited ++ more)).length ≤ (table.unvisited visited).length := by
  rw [unvisited_append]
  exact List.length_filter_le _ _

theorem length_unvisited_append_lt (table : Table) {visited : List Nat} {id : Nat}
    {c : Declared Contract} (hid : id ∉ visited) (hc : table.contracts[id]? = some c) :
    (table.unvisited (visited ++ [id])).length < (table.unvisited visited).length := by
  have hlt : id < table.contracts.length := (List.getElem?_eq_some_iff.mp hc).1
  rw [unvisited_append]
  apply List.length_filter_lt_length_iff_exists.mpr
  exact ⟨id, by simp [unvisited, hid, hlt], by simp⟩

theorem contractNamed?_eq_some_iff (table : Table) (name : String) (id : Nat) :
    table.contractNamed? name = some id ↔
      ∃ c, table.contracts[id]? = some c ∧ c.decl.name.text = name ∧
        ∀ i < id, ∀ earlier, table.contracts[i]? = some earlier →
          earlier.decl.name.text ≠ name := by
  rw [contractNamed?_eq_findIdx?, List.findIdx?_eq_some_iff_getElem]
  constructor
  · rintro ⟨hlt, hname, hfirst⟩
    refine ⟨table.contracts[id], List.getElem?_eq_getElem hlt, by simpa using hname, ?_⟩
    intro i hi earlier hearlier
    obtain ⟨hilt, rfl⟩ := List.getElem?_eq_some_iff.mp hearlier
    simpa using hfirst i hi
  · rintro ⟨c, hc, hname, hfirst⟩
    obtain ⟨hlt, rfl⟩ := List.getElem?_eq_some_iff.mp hc
    refine ⟨hlt, by simpa using hname, fun i hi => ?_⟩
    simpa using hfirst i hi _ (List.getElem?_eq_getElem (Nat.lt_trans hi hlt))

theorem mem_basesOf_iff (table : Table) (a b : Nat) :
    b ∈ table.basesOf a ↔ table.Inherits a b := by
  unfold basesOf Inherits
  cases ha : table.contracts[a]? with
  | none => simp
  | some derived =>
    simp only [List.mem_filterMap, contractNamed?_eq_some_iff]
    constructor
    · rintro ⟨name, hname, base, hb, rfl, hfirst⟩
      exact ⟨derived, base, rfl, hb, hname, hfirst⟩
    · rintro ⟨_, base, hd, hb, hname, hfirst⟩
      obtain rfl := Option.some.inj hd
      exact ⟨_, hname, base, hb, rfl, hfirst⟩

theorem Inherits.lt_length {table : Table} {a b : Nat} (h : table.Inherits a b) :
    b < table.contracts.length := by
  obtain ⟨_, base, _, hb, _⟩ := h
  exact (List.getElem?_eq_some_iff.mp hb).1

theorem lt_length_of_mem_basesOf {table : Table} {a b : Nat} (h : b ∈ table.basesOf a) :
    b < table.contracts.length :=
  ((table.mem_basesOf_iff a b).mp h).lt_length

mutual

/-- The contracts that the recursive walk visits from `id` on, after it has visited `visited`. -/
def preorder (table : Table) (visited : List Nat) (id : Nat) : List Nat :=
  if hid : id ∈ visited then []
  else
    match hc : table.contracts[id]? with
    | none => []
    | some c =>
      have := table.length_unvisited_append_lt hid hc
      id :: table.preorderBases (visited ++ [id]) c.decl.bases
termination_by ((table.unvisited visited).length, 0)
decreasing_by exact Prod.Lex.left _ _ this

def preorderBases (table : Table) (visited : List Nat) : List String → List Nat
  | [] => []
  | name :: names =>
    match table.contractNamed? name with
    | none => table.preorderBases visited names
    | some base =>
      have := table.length_unvisited_append_le visited (table.preorder visited base)
      table.preorder visited base ++
        table.preorderBases (visited ++ table.preorder visited base) names
termination_by names => ((table.unvisited visited).length, names.length)
decreasing_by
  · exact Prod.Lex.right _ (by simp)
  · exact Prod.Lex.right _ (by simp)
  · rcases Nat.lt_or_eq_of_le this with hlt | heq
    · exact Prod.Lex.left _ _ hlt
    · rw [heq]
      exact Prod.Lex.right _ (by simp)

end

def preorderAll (table : Table) (visited : List Nat) : List Nat → List Nat
  | [] => []
  | id :: ids =>
    table.preorder visited id ++ table.preorderAll (visited ++ table.preorder visited id) ids

theorem preorderBases_eq_preorderAll (table : Table) (visited : List Nat) (names : List String) :
    table.preorderBases visited names =
      table.preorderAll visited (names.filterMap table.contractNamed?) := by
  induction names generalizing visited with
  | nil => simp [preorderBases, preorderAll]
  | cons name names ih =>
    rw [preorderBases, List.filterMap_cons]
    cases hname : table.contractNamed? name with
    | none => exact ih visited
    | some base => simp only [preorderAll, ih]

theorem preorderAll_append (table : Table) (visited ids ids' : List Nat) :
    table.preorderAll visited (ids ++ ids') = table.preorderAll visited ids ++
      table.preorderAll (visited ++ table.preorderAll visited ids) ids' := by
  induction ids generalizing visited with
  | nil => simp [preorderAll]
  | cons id ids ih => simp only [List.cons_append, preorderAll, ih, List.append_assoc]

theorem preorder_of_mem {table : Table} {visited : List Nat} {id : Nat} (h : id ∈ visited) :
    table.preorder visited id = [] := by
  rw [preorder, dif_pos h]

/-- A walk that is already visited when it is asked for adds nothing, then or later. -/
theorem preorderAll_filter (table : Table) (before after ids : List Nat) :
    table.preorderAll (before ++ after) (ids.filter (fun id => decide (id ∉ before))) =
      table.preorderAll (before ++ after) ids := by
  induction ids generalizing after with
  | nil => rfl
  | cons id ids ih =>
    by_cases hid : id ∈ before
    · rw [List.filter_cons_of_neg (by simpa using hid), ih, preorderAll,
        preorder_of_mem (List.mem_append_left _ hid), List.append_nil, List.nil_append]
    · rw [List.filter_cons_of_pos (by simpa using hid), preorderAll, preorderAll,
        List.append_assoc, ih]

theorem preorder_of_not_mem {table : Table} {visited : List Nat} {id : Nat} (h : id ∉ visited)
    (hid : id < table.contracts.length) :
    table.preorder visited id =
      id :: table.preorderAll (visited ++ [id]) (table.basesOf id) := by
  have hc : table.contracts[id]? = some table.contracts[id] := List.getElem?_eq_getElem hid
  have hbases : table.basesOf id =
      table.contracts[id].decl.bases.filterMap table.contractNamed? := by
    simp only [basesOf, hc]
  rw [preorder, dif_neg h, hbases, ← preorderBases_eq_preorderAll]
  split
  next hnone => simp [hc] at hnone
  next c hsome =>
    obtain rfl : table.contracts[id] = c := by simpa [hc] using hsome
    rfl

theorem preorder_of_length_le {table : Table} (visited : List Nat) {id : Nat}
    (hid : table.contracts.length ≤ id) : table.preorder visited id = [] := by
  rw [preorder]
  split
  · rfl
  · split
    next => rfl
    next c hsome => simp [List.getElem?_eq_none hid] at hsome

/-- The stack walk against the recursive one. The invariant ties `fresh` to the contracts that
the recursive walk has not visited; the stack is the list of walks still to be made. -/
theorem walk_eq_preorderAll (table : Table) {fresh stack visited : List Nat}
    (hnodup : fresh.Nodup)
    (hfresh : ∀ id, id ∈ fresh ↔ id < table.contracts.length ∧ id ∉ visited) :
    walk table.basesOf fresh stack = table.preorderAll visited stack := by
  fun_induction walk table.basesOf fresh stack generalizing visited with
  | case1 => rfl
  | case2 fresh node stack hnode ih =>
    obtain ⟨hlt, hnew⟩ := (hfresh node).mp hnode
    have herase : ∀ id, id ∈ fresh.erase node ↔
        id < table.contracts.length ∧ id ∉ visited ++ [node] := by
      intro id
      rw [hnodup.mem_erase_iff, hfresh id]
      simp only [List.mem_append, List.mem_singleton, not_or]
      tauto
    have hpush : (table.basesOf node).filter (fun n => decide (n ∈ fresh.erase node)) =
        (table.basesOf node).filter (fun n => decide (n ∉ visited ++ [node])) := by
      apply List.filter_congr
      intro n hn
      simp only [herase n, lt_length_of_mem_basesOf hn, true_and]
    -- Bases left off the stack are visited now and stay visited when their turn would come.
    have hfilter := table.preorderAll_filter (visited ++ [node]) [] (table.basesOf node)
    rw [List.append_nil] at hfilter
    rw [ih (hnodup.erase node) herase, hpush, preorderAll_append, hfilter, preorderAll,
      preorder_of_not_mem hnew hlt]
    simp only [List.append_assoc, List.cons_append, List.nil_append]
  | case3 fresh node stack hnode ih =>
    rw [ih hnodup hfresh, preorderAll]
    have hadds : table.preorder visited node = [] := by
      by_cases hlt : node < table.contracts.length
      · apply preorder_of_mem
        by_contra hnew
        exact hnode ((hfresh node).mpr ⟨hlt, hnew⟩)
      · exact preorder_of_length_le visited (Nat.le_of_not_lt hlt)
    rw [hadds, List.append_nil, List.nil_append]

theorem lineage_eq_preorder (table : Table) (id : Nat) :
    table.lineage id = table.preorder [] id := by
  have hfresh : ∀ other, other ∈ List.range table.contracts.length ↔
      other < table.contracts.length ∧ other ∉ ([] : List Nat) := by
    simp
  rw [lineage, table.walk_eq_preorderAll List.nodup_range hfresh]
  simp [preorderAll]

/-- Everything that is reached through base lists is in the lineage: a lineage is closed under
bases, since nothing was visited before it. -/
theorem mem_lineage_of_reached {table : Table} {id other : Nat}
    (hid : id < table.contracts.length) (h : Relation.ReflTransGen table.Inherits id other) :
    other ∈ table.lineage id := by
  induction h with
  | refl => exact mem_walk_of_mem_stack List.mem_cons_self (List.mem_range.mpr hid)
  | tail _ hstep ih =>
    exact mem_walk_of_next ih ((table.mem_basesOf_iff _ _).mpr hstep)
      (List.mem_range.mpr hstep.lt_length)

theorem mem_lineage_iff {table : Table} {id : Nat} (hid : id < table.contracts.length)
    (other : Nat) : other ∈ table.lineage id ↔ Relation.ReflTransGen table.Inherits id other := by
  constructor
  · intro h
    obtain ⟨start, hstart, hpath⟩ := reached_of_mem_walk h
    obtain rfl := List.mem_singleton.mp hstart
    exact Relation.ReflTransGen.mono (fun a b => (table.mem_basesOf_iff a b).mp) _ _ hpath
  · exact mem_lineage_of_reached hid

theorem mem_inherited_iff_lineage {α : Type} {table : Table} {held : Declared Contract → List α}
    {id : Nat} {x : α} : x ∈ table.inherited held id ↔
      ∃ base ∈ table.lineage id, ∃ c, table.contracts[base]? = some c ∧ x ∈ held c := by
  rw [inherited, List.mem_flatMap]
  refine exists_congr fun base => and_congr_right fun _ => ?_
  cases table.contracts[base]? <;> simp

/-- A lineage is the recursive preorder walk from its contract; it starts with the contract, has
no contract twice, and holds exactly what is reached through base lists. -/
theorem lineage_preorder_nodup_reachable (table : Table) (id : Nat)
    (hid : id < table.contracts.length) :
    table.lineage id = table.preorder [] id ∧ (table.lineage id).head? = some id ∧
      (table.lineage id).Nodup ∧
      ∀ other, other ∈ table.lineage id ↔ Relation.ReflTransGen table.Inherits id other := by
  refine ⟨table.lineage_eq_preorder id, ?_, nodup_walk List.nodup_range, mem_lineage_iff hid⟩
  rw [lineage_eq_preorder, preorder_of_not_mem List.not_mem_nil hid, List.head?_cons]

def diamond : String :=
  "contract A is B, C, B \x7b \x7d contract B is D \x7b \x7d contract C is X, D, A \x7b \x7d " ++
    "contract D \x7b \x7d contract B is C \x7b \x7d"

theorem lineage_preorder_of_diamond :
    let table := load default ⟨"/C.sol"⟩ diamond
    0 < table.contracts.length ∧ table.lineage 0 = table.preorder [] 0 ∧
      (table.lineage 0).head? = some 0 ∧ (table.lineage 0).Nodup ∧
      ∀ other, other ∈ table.lineage 0 ↔ Relation.ReflTransGen table.Inherits 0 other := by
  intro table
  have hcontracts : 0 < table.contracts.length := by decide +kernel
  exact ⟨hcontracts, lineage_preorder_nodup_reachable table 0 hcontracts⟩

end Table

end SolidityCompass
