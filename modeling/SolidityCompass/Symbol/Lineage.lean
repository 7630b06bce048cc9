import SolidityCompass.Symbol.Table

/-!
# Lineages

The lineage of a contract is the contract and all that it inherits from, each contract once: the
contract first, then the lineage of its first base, then that of the second, and so on. It is
found by a walk with a stack, which ends on every inheritance graph, cycles included, because
each contract is taken from the fresh ones at most once.
-/

namespace SolidityCompass

/-- Walks over a graph. `fresh` holds what was not visited yet, and the stack what is to be
visited next. -/
def walk (next : Nat → List Nat) (fresh : List Nat) : List Nat → List Nat
  | [] => []
  | node :: stack =>
    if _h : node ∈ fresh then
      node :: walk next (fresh.erase node)
        ((next node).filter (fun n => decide (n ∈ fresh.erase node)) ++ stack)
    else walk next fresh stack
termination_by stack => (fresh.length, stack.length)
decreasing_by
  · apply Prod.Lex.left
    rw [List.length_erase_of_mem (by assumption)]
    have := List.length_pos_of_mem (by assumption : node ∈ fresh)
    omega
  · apply Prod.Lex.right
    simp

namespace Table

/-- The numbers of the known base contracts of a contract, in the order of its base list. -/
def basesOf (table : Table) (id : Nat) : List Nat :=
  match table.contracts[id]? with
  | some c => c.decl.bases.filterMap table.contractNamed?
  | none => []

def lineage (table : Table) (id : Nat) : List Nat :=
  walk table.basesOf (List.range table.contracts.length) [id]

def inherited {α : Type} (table : Table) (held : Declared Contract → List α) (id : Nat) : List α :=
  (table.lineage id).flatMap fun base => ((table.contracts[base]?).map held).getD []

def allFunctions (table : Table) (id : Nat) : List (Declared Function) :=
  table.inherited Declared.functions id

def allEvents (table : Table) (id : Nat) : List (Declared Event) :=
  table.inherited Declared.events id

def allStateVariables (table : Table) (id : Nat) : List Variable :=
  table.inherited Declared.stateVariables id

def allStructs (table : Table) (id : Nat) : List (Declared Struct) :=
  table.inherited Declared.structs id

def allEnums (table : Table) (id : Nat) : List (Declared Enum) :=
  table.inherited Declared.enums id

def allBindings (table : Table) (id : Nat) : List Binding :=
  table.inherited Declared.bindings id

end Table

end SolidityCompass
