import SolidityCompass.Symbol.Lowering

/-!
# Loading a table

A table is built by reading the document and then, breadth first, every file that can be reached
through imports and read from the store. A `Builder` holds the table so far and the `Frontier` of
the walk: the paths that were visited, and the files that are still to be lowered. A path is marked
as visited before it is read, so that import cycles do no harm. The walk ends because every file
that comes into the queue uses up a path of the store.
-/

namespace SolidityCompass

theorem FileMap.exists_path_of_get? {files : FileMap} {p : Path} {content : String}
    (h : files.get? p = some content) : ∃ q ∈ files.paths, q.components = p.components := by
  obtain ⟨entry, hentry, -⟩ := Option.map_eq_some_iff.mp h
  refine ⟨entry.1, List.mem_map_of_mem (List.mem_of_find?_eq_some hentry), ?_⟩
  have hsame := List.find?_some hentry
  exact Path.same_iff.mp hsame

theorem Store.exists_path_of_read {store : Store} {p : Path} {content : String}
    (h : store.read p = .ok content) : ∃ q ∈ store.paths, q.components = p.components := by
  induction store with
  | memory files | disk files =>
    unfold read at h
    split at h
    next found hfound => exact FileMap.exists_path_of_get? hfound
    next => cases h
  | overlay buffers base ih =>
    unfold read at h
    split at h
    next found hfound =>
      obtain ⟨q, hq, hsame⟩ := FileMap.exists_path_of_get? hfound
      exact ⟨q, List.mem_append_left _ hq, hsame⟩
    next =>
      obtain ⟨q, hq, hsame⟩ := ih h
      exact ⟨q, List.mem_append_right _ hq, hsame⟩

structure Frontier where
  visited : List Path
  queue : List (Path × String)
deriving Repr, DecidableEq, Inhabited

namespace Frontier

def hasVisited (front : Frontier) (path : Path) : Bool :=
  front.visited.any (·.same path)

/-- Adds the target of an import to the queue, unless it was visited before or cannot be read. -/
def visit (store : Store) (front : Frontier) (target : Path) : Frontier :=
  if front.hasVisited target then front
  else
    let visited := front.visited ++ [target]
    match store.read target with
    | .ok text => ⟨visited, front.queue ++ [(target, text)]⟩
    | .error _ => ⟨visited, front.queue⟩

def unvisited (store : Store) (front : Frontier) : List Path :=
  store.paths.filter fun path => !front.hasVisited path

def remaining (store : Store) (front : Frontier) : Nat :=
  (front.unvisited store).length + front.queue.length

section visit

variable {store : Store} {front : Frontier} {target : Path} (queue : List (Path × String))

theorem unvisited_append : unvisited store ⟨front.visited ++ [target], queue⟩ =
    (front.unvisited store).filter fun path => !target.same path := by
  simp [unvisited, hasVisited, List.filter_filter, Bool.and_comm]

theorem length_unvisited_append_lt {text : String} (hnew : ¬ front.hasVisited target = true)
    (hread : store.read target = .ok text) :
    (unvisited store ⟨front.visited ++ [target], queue⟩).length <
      (front.unvisited store).length := by
  obtain ⟨path, hpath, hsame⟩ := Store.exists_path_of_read hread
  rw [unvisited_append]
  refine List.length_filter_lt_length_iff_exists.mpr ⟨path, List.mem_filter.mpr ⟨hpath, ?_⟩, ?_⟩
  · simpa [hasVisited, Path.same, hsame] using hnew
  · simp [Path.same, hsame]

theorem remaining_visit_le (store : Store) (front : Frontier) (target : Path) :
    (front.visit store target).remaining store ≤ front.remaining store := by
  unfold visit
  split
  next => exact Nat.le_refl _
  next hnew =>
    dsimp only
    split
    next text hread =>
      have hlt := length_unvisited_append_lt (front.queue ++ [(target, text)]) hnew hread
      simp only [remaining, List.length_append, List.length_singleton]
      omega
    next =>
      simp only [remaining, unvisited_append]
      exact Nat.add_le_add_right (List.length_filter_le _ _) _

end visit

theorem remaining_foldl_visit_le (store : Store) (targets : List Path) (front : Frontier) :
    (targets.foldl (visit store) front).remaining store ≤ front.remaining store := by
  induction targets generalizing front with
  | nil => exact Nat.le_refl _
  | cons target targets ih =>
    exact Nat.le_trans (ih (front.visit store target)) (remaining_visit_le store front target)

end Frontier

structure Builder where
  symbols : Symbols
  front : Frontier
deriving Repr, DecidableEq, Inhabited

namespace Builder

def start (path : Path) (text : String) : Builder :=
  ⟨.empty, [path], [(path, text)]⟩

/-- Lowers the file in front of the queue, visits what it imports, and adds it to the files. -/
def step (rules : ImportRules) (b : Builder) : Option Builder :=
  match b.front.queue with
  | [] => none
  | (path, text) :: queue =>
    let id := b.symbols.files.length
    let lowered := b.symbols.lower rules id path text
    let front := lowered.2.foldl (Frontier.visit rules.store) ⟨b.front.visited, queue⟩
    some ⟨lowered.1.addFile ⟨id, path, text⟩, front⟩

variable {rules : ImportRules} {b next : Builder}

theorem step_eq_none_iff : b.step rules = none ↔ b.front.queue = [] := by
  unfold step
  split <;> simp_all

/-- A step lowers one file, under the next number, and goes on from what is left of the queue. -/
theorem step_eq_some_iff : b.step rules = some next ↔ ∃ path text queue,
    b.front.queue = (path, text) :: queue ∧
      next.symbols = (b.symbols.lower rules b.symbols.files.length path text).1.addFile
        ⟨b.symbols.files.length, path, text⟩ ∧
      next.front = (rules.targets path text).foldl (Frontier.visit rules.store)
        ⟨b.front.visited, queue⟩ := by
  unfold step
  split
  next hqueue => simp [hqueue]
  next path text queue hqueue =>
    obtain ⟨symbols, front⟩ := next
    simp only [hqueue, Option.some.injEq, Builder.mk.injEq, Symbols.lower_snd, List.cons.injEq,
      Prod.mk.injEq]
    constructor
    · rintro ⟨rfl, rfl⟩
      exact ⟨path, text, queue, ⟨⟨rfl, rfl⟩, rfl⟩, rfl, rfl⟩
    · rintro ⟨_, _, _, ⟨⟨rfl, rfl⟩, rfl⟩, rfl, rfl⟩
      exact ⟨rfl, rfl⟩

theorem remaining_step_lt (h : b.step rules = some next) :
    next.front.remaining rules.store < b.front.remaining rules.store := by
  obtain ⟨path, text, queue, hqueue, -, hfront⟩ := step_eq_some_iff.mp h
  have hle := Frontier.remaining_foldl_visit_le rules.store (rules.targets path text)
    ⟨b.front.visited, queue⟩
  have hpop : b.front.remaining rules.store =
      Frontier.remaining rules.store ⟨b.front.visited, queue⟩ + 1 := by
    simp only [Frontier.remaining, hqueue, List.length_cons, ← Nat.add_assoc]
    rfl
  rw [hfront]
  omega

theorem wellFormed_step (h : b.step rules = some next) (hb : b.symbols.WellFormed) :
    next.symbols.WellFormed := by
  obtain ⟨path, text, queue, -, hsymbols, -⟩ := step_eq_some_iff.mp h
  have hadds := b.symbols.adds_lower rules b.symbols.files.length path text
  rw [hsymbols]
  refine ⟨(hadds.indexed hb.indexed).addFile _, fun home hhome => ?_⟩
  simp only [Symbols.addFile, hadds.files, List.length_append, List.length_singleton]
  rcases Symbols.mem_homes_lower hhome with hold | hnew
  · exact Nat.lt_succ_of_lt (hb.homed home hold)
  · omega

def run (rules : ImportRules) (b : Builder) : Symbols :=
  match h : b.step rules with
  | none => b.symbols
  | some next =>
    have := remaining_step_lt h
    run rules next
termination_by b.front.remaining rules.store
decreasing_by assumption

theorem run_of_step_eq_none (h : b.step rules = none) : b.run rules = b.symbols := by
  rw [run]
  split
  next => rfl
  next next hnext => rw [h] at hnext; cases hnext

theorem run_of_step_eq_some (h : b.step rules = some next) : b.run rules = next.run rules := by
  rw [run]
  split
  next hnone => rw [h] at hnone; cases hnone
  next next' hnext => rw [h] at hnext; cases hnext; rfl

theorem wellFormed_run (hb : b.symbols.WellFormed) : (b.run rules).WellFormed := by
  fun_induction run rules b with
  | case1 b h => exact hb
  | case2 b next h _ ih => exact ih (wellFormed_step h hb)

end Builder

def Table.load (rules : ImportRules) (path : Path) (text : String) : Table where
  toSymbols := (Builder.start path text).run rules
  wellFormed := Builder.wellFormed_run Symbols.wellFormed_empty

end SolidityCompass
