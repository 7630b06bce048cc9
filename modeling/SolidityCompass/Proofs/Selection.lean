import SolidityCompass.Proofs.BodyScope

/-!
# The declarations around the cursor

A table numbers the contracts of all its files in one list, and names may stand in it more than
once. The cursor selects by place: an offset inside a contract of the document selects that
contract, by its number, and an offset inside a function takes the scope of that function. Both
rest on the order of the ranges of an outline, since an offset inside of one range cannot touch a
range before it.
-/

namespace SolidityCompass

/-- The number of a range in order is found from any offset in it behind its start. -/
theorem findIdx?_touches {α : Type} {range : α → ByteRange} {xs : List α} {x : α}
    {i offset : Nat} (hordered : xs.Pairwise fun a b => (range a).stop ≤ (range b).start)
    (hx : xs[i]? = some x) (hstart : (range x).start < offset) (hstop : offset ≤ (range x).stop) :
    xs.findIdx? (fun a => (range a).touches offset) = some i := by
  obtain ⟨hi, rfl⟩ := List.getElem?_eq_some_iff.mp hx
  refine List.findIdx?_eq_some_iff_getElem.mpr ⟨hi, by simp [hstop, hstart.le], ?_⟩
  intro j hj
  have hle := List.pairwise_iff_getElem.mp hordered j i (hj.trans hi) hi hj
  rw [ByteRange.touches_eq_true]
  omega

namespace Table

variable {rules : ImportRules} {path : Path} {text : String}

/-- The contracts of the document are numbered as in its outline. -/
theorem getElem?_contracts_of_file {id : Nat} {c : Declared Contract}
    (h : (load rules path text).contracts[id]? = some c) (hfile : c.home.file = 0) :
    (readOutline text).outline.contracts[id]? = some c.decl := by
  obtain ⟨later, hcontracts, hlater⟩ := exists_contracts_load rules path text
  rw [hcontracts, List.getElem?_append] at h
  split at h
  · obtain ⟨d, hd, rfl⟩ := Option.map_eq_some_iff.mp (List.getElem?_map ▸ h)
    exact hd
  · exact absurd hfile (hlater c (List.mem_of_getElem? h))

/-- No contract of another file is selected. -/
theorem contractAt?_load (rules : ImportRules) (path : Path) (text : String) (offset : Nat) :
    (load rules path text).contractAt? offset =
      (readOutline text).outline.contracts.findIdx? fun c => c.range.touches offset := by
  obtain ⟨later, hcontracts, hlater⟩ := exists_contracts_load rules path text
  have hnone : later.findIdx? (fun c => c.home.file = 0 && c.decl.range.touches offset) = none := by
    rw [List.findIdx?_eq_none_iff]
    intro d hd
    simp [hlater d hd]
  rw [contractAt?, hcontracts, List.findIdx?_append, hnone, Option.map_none, Option.or_none,
    List.findIdx?_map]
  simp only [Function.comp_def, decide_true, Bool.true_and]

theorem contractAt?_of_inside {id offset : Nat} {c : Declared Contract}
    (h : (load rules path text).contracts[id]? = some c) (hfile : c.home.file = 0)
    (hstart : c.decl.range.start < offset) (hstop : offset ≤ c.decl.range.stop) :
    (load rules path text).contractAt? offset = some id := by
  rw [contractAt?_load]
  exact findIdx?_touches (pairwise_contracts text) (getElem?_contracts_of_file h hfile) hstart hstop

end Table

namespace Declared

theorem functions_eq (c : Declared Contract) :
    c.functions = c.decl.functions.map (⟨·, ⟨c.home.file, some c.decl.name.text⟩⟩) := rfl

theorem decl_mem_of_mem_functions {c : Declared Contract} {f : Declared Function}
    (h : f ∈ c.functions) : .function f.decl ∈ c.decl.members := by
  rw [functions_eq] at h
  obtain ⟨g, hg, rfl⟩ := List.mem_map.mp h
  exact Contract.mem_functions.mp hg

theorem functionAt?_of_inside {text : String} {c : Declared Contract} {f : Declared Function}
    {offset : Nat} (hc : c.decl ∈ (readOutline text).outline.contracts) (hf : f ∈ c.functions)
    (hstart : f.decl.range.start < offset) (hstop : offset ≤ f.decl.range.stop) :
    c.functionAt? offset = some f := by
  have hordered : c.functions.Pairwise fun f g => f.decl.range.stop ≤ g.decl.range.start := by
    rw [functions_eq]
    exact List.pairwise_map.mpr (pairwise_functions hc)
  exact find?_touches hordered hf hstart hstop

end Declared

theorem Scope.at?_eq_some_iff {f : Declared Function} {offset : Nat} {scope : Scope} :
    at? f offset = some scope ↔ f.decl.range.touches offset = true ∧
      scope = ⟨f, f.locals.filter fun v => v.range.stop ≤ offset⟩ := by
  rw [at?, Option.ite_none_right_eq_some, Option.some.injEq, eq_comm (a := scope)]

/-- An offset inside a contract of the document selects that contract, whatever other contracts
the table holds and however they are named, and an offset inside one of its functions takes the
scope of that function. What is selected is never a contract of another file. -/
theorem Viewpoint.ofOffset_selects_around (rules : ImportRules) (path : Path) (text : String)
    (id : Nat) (c : Declared Contract)
    (hc : (Table.load rules path text).contracts[id]? = some c) (hfile : c.home.file = 0) :
    (∀ offset, c.decl.range.start < offset → offset < c.decl.range.stop →
      (Table.load rules path text).contractAt? offset = some id) ∧
      (∀ f ∈ c.functions, ∀ offset, f.decl.range.start < offset → offset < f.decl.range.stop →
        (ofOffset (Table.load rules path text) offset).selected = some id ∧
          ∃ scope, (ofOffset (Table.load rules path text) offset).scope = some scope ∧
            scope.function = f ∧ Scope.at? f offset = some scope) ∧
      ∀ offset other, (Table.load rules path text).contractAt? offset = some other →
        ∃ d, (Table.load rules path text).contracts[other]? = some d ∧ d.home.file = 0 ∧
          d.decl.range.touches offset = true := by
  have hmem := List.mem_of_getElem? (Table.getElem?_contracts_of_file hc hfile)
  refine ⟨fun offset hstart hstop => Table.contractAt?_of_inside hc hfile hstart hstop.le, ?_, ?_⟩
  · intro f hf offset hstart hstop
    have hwithin := function_within_contract hmem (Declared.decl_mem_of_mem_functions hf)
    have hselected := Table.contractAt?_of_inside hc hfile
      (hwithin.1.trans_lt hstart) (hstop.le.trans hwithin.2)
    have hfunction := Declared.functionAt?_of_inside hmem hf hstart hstop.le
    have hscope : (ofOffset (Table.load rules path text) offset).scope = Scope.at? f offset := by
      simp [ofOffset, hselected, hc, hfunction]
    have htouch : f.decl.range.touches offset = true :=
      (ByteRange.touches_eq_true _ _).mpr ⟨hstart.le, hstop.le⟩
    have hat := Scope.at?_eq_some_iff.mpr ⟨htouch, rfl⟩
    exact ⟨hselected, _, hscope.trans hat, rfl, hat⟩
  · intro offset other hother
    obtain ⟨hlt, hfound, -⟩ := List.findIdx?_eq_some_iff_getElem.mp hother
    simp only [Bool.and_eq_true, decide_eq_true_eq] at hfound
    exact ⟨_, List.getElem?_eq_getElem hlt, hfound.1, hfound.2⟩

/-- A project in which another file declares a contract of the same name, at about the same
place. -/
def namesakeRules : ImportRules :=
  ⟨⟨"/p"⟩, ⟨"/p/lib"⟩, "src", [],
    .memory ⟨[(⟨"/p/B.sol"⟩,
      "contract C \x7b function f() \x7b uint x = 1; uint y = 2; uint z = 3; \x7d \x7d")]⟩⟩

def namesakes : String :=
  "import './B.sol'; contract C \x7b \x7d " ++
    "contract C \x7b function f() \x7b \x7d function g() \x7b \x7d \x7d"

def namesakeFunction : Function :=
  ⟨.function, ⟨"g", ⟨72, 73⟩⟩, [], [], some ⟨⟨76, 79⟩, []⟩, ⟨63, 79⟩⟩

def namesakeContract : Declared Contract where
  decl := ⟨.contract, false, ⟨"C", ⟨42, 43⟩⟩, [],
    [.function ⟨.function, ⟨"f", ⟨55, 56⟩⟩, [], [], some ⟨⟨59, 62⟩, []⟩, ⟨46, 62⟩⟩,
      .function namesakeFunction], ⟨33, 81⟩⟩
  home := ⟨0, none⟩

theorem Viewpoint.ofOffset_selects_of_namesakes :
    let table := Table.load namesakeRules ⟨"/p/A.sol"⟩ namesakes
    table.contracts.map (fun c => (c.home.file, c.decl.name.text, c.decl.range)) =
        [(0, "C", ⟨18, 32⟩), (0, "C", ⟨33, 81⟩), (1, "C", ⟨0, 67⟩)] ∧
      table.contractAt? 45 = some 1 ∧ (ofOffset table 64).selected = some 1 ∧
      ∃ scope, (ofOffset table 64).scope = some scope ∧ scope.function.decl.name.text = "g" := by
  have hc : (Table.load namesakeRules ⟨"/p/A.sol"⟩ namesakes).contracts[1]? =
      some namesakeContract := by decide +kernel
  obtain ⟨hcontract, hfunction, -⟩ :=
    ofOffset_selects_around namesakeRules ⟨"/p/A.sol"⟩ namesakes 1 namesakeContract hc rfl
  obtain ⟨hselected, scope, hscope, hg, -⟩ :=
    hfunction ⟨namesakeFunction, ⟨0, some "C"⟩⟩ (by decide) 64 (by decide) (by decide)
  refine ⟨by decide +kernel, hcontract 45 (by decide) (by decide), hselected, scope, hscope, ?_⟩
  rw [hg]
  rfl

end SolidityCompass
