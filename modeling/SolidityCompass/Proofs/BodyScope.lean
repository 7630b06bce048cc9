import SolidityCompass.Proofs.BreadthFirst
import SolidityCompass.Proofs.OutlineRanges
import SolidityCompass.Proofs.TableEntries
import SolidityCompass.Symbol.Viewpoint

/-!
# Bodies and the scopes around an offset

A function ends with its last token, but a body that is not closed runs to the end of the text. So
a body lies in its function, and an offset in it is seen from inside the function, only as far as
there are tokens: what follows the last token of the text, blanks and comments, belongs to the
body of an unfinished function but to neither the function nor its contract.
-/

namespace SolidityCompass

/-- The first of some ranges in order that an offset touches, if it lies behind the start. -/
theorem find?_touches {α : Type} {range : α → ByteRange} {xs : List α} {x : α} {offset : Nat}
    (hordered : xs.Pairwise fun a b => (range a).stop ≤ (range b).start) (hx : x ∈ xs)
    (hstart : (range x).start < offset) (hstop : offset ≤ (range x).stop) :
    xs.find? (fun a => (range a).touches offset) = some x := by
  obtain ⟨before, after, rfl⟩ := List.append_of_mem hx
  refine List.find?_eq_some_iff_append.mpr ⟨by simp [hstop, hstart.le], before, after, rfl, ?_⟩
  intro a ha
  have hle := (List.pairwise_append.mp hordered).2.2 a ha x List.mem_cons_self
  simp only [Bool.not_eq_true', Bool.eq_false_iff, ne_eq, ByteRange.touches_eq_true]
  omega

def Contract.functions (c : Contract) : List Function :=
  c.members.filterMap fun
    | .function f => some f
    | _ => none

theorem Contract.mem_functions {c : Contract} {f : Function} :
    f ∈ c.functions ↔ .function f ∈ c.members := by
  unfold Contract.functions
  rw [List.mem_filterMap]
  constructor
  · rintro ⟨m, hm, hf⟩
    cases m <;> simp_all
  · intro h
    exact ⟨_, h, rfl⟩

theorem pairwise_contracts (text : String) :
    (readOutline text).outline.contracts.Pairwise fun c d => c.range.stop ≤ d.range.start := by
  have hitems := List.pairwise_map.mp (readOutline_row text).pairwise
  refine List.pairwise_filterMap.mpr (hitems.imp ?_)
  intro x y hxy c hc d hd
  cases x <;> cases y <;> simp_all [Item.tree, Contract.tree, RangeTree.range]

/-- The members of a contract form a row inside of it. -/
theorem row_of_mem_contracts {text : String} {c : Contract}
    (h : c ∈ (readOutline text).outline.contracts) :
    Row text c.range.start c.range.stop (c.name.tree :: c.members.map Member.tree) := by
  have hmem := List.mem_map_of_mem (f := Item.tree) (Outline.mem_contracts.mp h)
  exact ((readOutline_row text).of_mem hmem).2.2.2

theorem pairwise_functions {text : String} {c : Contract}
    (h : c ∈ (readOutline text).outline.contracts) :
    c.functions.Pairwise fun f g => f.range.stop ≤ g.range.start := by
  have hparts := (List.pairwise_cons.mp (row_of_mem_contracts h).pairwise).2
  refine List.pairwise_filterMap.mpr ((List.pairwise_map.mp hparts).imp ?_)
  intro x y hxy f hf g hg
  cases x <;> cases y <;> simp_all [Member.tree, Function.tree, RangeTree.range]

theorem function_within_contract {text : String} {c : Contract} {f : Function}
    (hc : c ∈ (readOutline text).outline.contracts) (hf : .function f ∈ c.members) :
    c.range.start ≤ f.range.start ∧ f.range.stop ≤ c.range.stop := by
  have hmem := List.mem_map_of_mem (f := Member.tree) hf
  obtain ⟨hstart, hstop, -⟩ :=
    (row_of_mem_contracts hc).of_mem (List.mem_cons_of_mem _ hmem)
  exact ⟨hstart, hstop⟩

namespace Cursor

variable {text : String} {c : Cursor}

theorem On.passed_of_rest {tokens : List Token} (h : c.On tokens) (hr : c.rest = []) :
    c.passed = lastStop tokens := by
  obtain ⟨done, hdone, hpassed⟩ := h
  rw [hpassed, hdone, hr, List.append_nil]

theorem In.passed_le_lastStop (h : c.In text) : c.passed ≤ lastStop (significant text) := by
  have hreach := c.reaches_skip c.rest.length
  rw [← (h.reaches hreach).on.passed_of_rest (by simp)]
  exact h.passed_le hreach

end Cursor

theorem contract_stop_le_lastStop {text : String} {c : Contract}
    (h : c ∈ (readOutline text).outline.contracts) :
    c.range.stop ≤ lastStop (significant text) := by
  obtain ⟨r, hwalk, hr⟩ := Reading.exists_walks_of_mem_contracts h
  obtain ⟨s, named, -, -, -, hstop, -, hname, hend⟩ := Reading.contract_cases hr
  rw [hstop]
  have hnamed := r.reaches_atKind.trans
    ((Cursor.reaches_advance _).trans (Reading.reaches_of_expectName hname))
  have hin := (Reading.sound_start text).cursor.reaches (hwalk.reaches.trans (hnamed.trans hend))
  exact hin.passed_le_lastStop

/-- A body starts behind the first token of its function. It ends with the function, or it is not
closed and the function ends with the last token of the text. -/
theorem function_body_range {text : String} {c : Contract} {f : Function} {b : Body}
    (hc : c ∈ (readOutline text).outline.contracts) (hf : .function f ∈ c.members)
    (hb : f.body = some b) :
    f.range.start < b.range.start ∧ f.range.stop ≤ lastStop (significant text) ∧
      (b.range.stop = f.range.stop ∨ f.range.stop = lastStop (significant text)) := by
  obtain ⟨r, hr, hne, hfunction⟩ := Reading.exists_function_of_mem hc hf
  obtain ⟨s, hs, hbrace, rfl, hrange, -⟩ := Reading.function_body_cases hfunction hb
  have hin := (Reading.sound_start text).cursor.reaches hr
  have hpasses : r.cursor.Passes s.cursor := (Cursor.passes_advance hne).trans_reaches hs
  have hins := hin.reaches hpasses.reaches
  have hend := hins.reaches (Reading.passes_functionBody hbrace).reaches
  have hstart : r.here.start < s.here.start :=
    (hin.here_start_lt hne).trans_le ((hin.here_stop_le hpasses).trans hins.passed_le_here)
  rw [hrange]
  rcases s.functionBody_range with hclosed | ⟨hopen, hrest⟩
  · rw [hclosed]
    exact ⟨hstart, hend.passed_le_lastStop, Or.inl rfl⟩
  · rw [hopen]
    exact ⟨hstart, hend.passed_le_lastStop, Or.inr (hend.on.passed_of_rest hrest)⟩

namespace Table

/-- The contracts of the document come first and are those of its outline. -/
theorem exists_contracts_load (rules : ImportRules) (path : Path) (text : String) :
    ∃ later, (load rules path text).contracts =
        (readOutline text).outline.contracts.map (⟨·, ⟨0, none⟩⟩) ++ later ∧
      ∀ c ∈ later, c.home.file ≠ 0 := by
  obtain ⟨more, hmore⟩ := exists_files_load rules path text
  obtain ⟨later, hcontracts, hlater⟩ := (isRead_load rules path text).exists_contracts_eq hmore
  exact ⟨later, hcontracts, hlater⟩

theorem find?_contracts_load (rules : ImportRules) (path : Path) (text : String) (offset : Nat) :
    (load rules path text).contracts.find?
        (fun c => c.home.file = 0 && c.decl.range.touches offset) =
      ((readOutline text).outline.contracts.find? fun c => c.range.touches offset).map
        (⟨·, ⟨0, none⟩⟩) := by
  obtain ⟨later, hcontracts, hlater⟩ := exists_contracts_load rules path text
  have hnone : later.find? (fun c => c.home.file = 0 && c.decl.range.touches offset) = none := by
    rw [List.find?_eq_none]
    intro d hd
    simp [hlater d hd]
  rw [hcontracts, List.find?_append, hnone, Option.or_none, List.find?_map]
  simp only [Function.comp_def, decide_true, Bool.true_and]

end Table

namespace Viewpoint

def IsInside (view : Viewpoint) (c : Contract) (f : Function) : Prop :=
  (view.selected.bind fun id => view.table.contracts[id]?).map Declared.decl = some c ∧
    view.scope.map (fun scope => scope.function.decl) = some f

/-- The function whose scope is taken is the first one of the contract that the offset touches. -/
theorem scope_functionAt? (c : Declared Contract) (offset : Nat) :
    ((c.functionAt? offset).bind fun f => Scope.at? f offset).map
        (fun scope => scope.function.decl) =
      c.decl.functions.find? fun f => f.range.touches offset := by
  have hfind : c.functionAt? offset =
      (c.decl.functions.find? fun f => f.range.touches offset).map
        (⟨·, ⟨c.home.file, some c.decl.name.text⟩⟩) := by
    unfold Declared.functionAt? Declared.functions Declared.members
    rw [List.find?_map]
    rfl
  rw [hfind]
  cases hf : c.decl.functions.find? fun f => f.range.touches offset with
  | none => rfl
  | some f =>
    have htouch := List.find?_some hf
    simp only [Option.map_some, Option.bind_some, Scope.at?, htouch, if_true]

/-- The contract and the function around an offset are the first ones that it touches. -/
theorem isInside_ofOffset_iff (rules : ImportRules) (path : Path) (text : String) (offset : Nat)
    (c : Contract) (f : Function) :
    (ofOffset (Table.load rules path text) offset).IsInside c f ↔
      (readOutline text).outline.contracts.find? (fun c => c.range.touches offset) = some c ∧
        c.functions.find? (fun f => f.range.touches offset) = some f := by
  have hselected : (ofOffset (Table.load rules path text) offset).selected.bind
      (fun id => (Table.load rules path text).contracts[id]?) = _ :=
    List.find?_eq_bind_findIdx?_getElem?.symm.trans
      (Table.find?_contracts_load rules path text offset)
  have hscope : (ofOffset (Table.load rules path text) offset).scope =
      ((ofOffset (Table.load rules path text) offset).selected.bind
        fun id => (Table.load rules path text).contracts[id]?).bind fun contract =>
          (contract.functionAt? offset).bind fun f => Scope.at? f offset := by
    rw [Option.bind_assoc]
    rfl
  have htable : (ofOffset (Table.load rules path text) offset).table =
      Table.load rules path text := rfl
  unfold IsInside
  rw [hscope, htable, hselected]
  cases (readOutline text).outline.contracts.find? fun c => c.range.touches offset with
  | none => simp
  | some d =>
    rw [Option.map_some, Option.map_some, Option.bind_some, scope_functionAt?]
    constructor
    · rintro ⟨hd, hf⟩
      cases hd
      exact ⟨rfl, hf⟩
    · rintro ⟨hd, hf⟩
      cases hd
      exact ⟨rfl, hf⟩

end Viewpoint

/-- A function lies in its contract, and a body as well as every view from an offset in it lies in
its function as far as there are tokens in the text. -/
theorem function_contains_body_iff (text : String) (c : Contract) (f : Function) (b : Body)
    (hc : c ∈ (readOutline text).outline.contracts) (hf : .function f ∈ c.members)
    (hb : f.body = some b) :
    (c.range.start ≤ f.range.start ∧ f.range.stop ≤ c.range.stop) ∧
      f.range.start ≤ b.range.start ∧
      (b.range.stop ≤ f.range.stop ↔ b.range.stop ≤ lastStop (significant text)) ∧
      ∀ (rules : ImportRules) (path : Path) (offset : Nat), b.range.touches offset = true →
        ((Viewpoint.ofOffset (Table.load rules path text) offset).IsInside c f ↔
          offset ≤ lastStop (significant text)) := by
  obtain ⟨hstart, hlast, hend⟩ := function_body_range hc hf hb
  have hwithin := function_within_contract hc hf
  refine ⟨hwithin, hstart.le, ?_, ?_⟩
  · rcases hend with hend | hend <;> omega
  · intro rules path offset htouch
    rw [ByteRange.touches_eq_true] at htouch
    rw [Viewpoint.isInside_ofOffset_iff]
    constructor
    · rintro ⟨hfind, -⟩
      have hin := List.find?_some hfind
      rw [ByteRange.touches_eq_true] at hin
      exact hin.2.trans (contract_stop_le_lastStop hc)
    · intro hoffset
      have hstop : offset ≤ f.range.stop := by rcases hend with hend | hend <;> omega
      refine ⟨find?_touches (pairwise_contracts text) hc ?_ ?_,
        find?_touches (pairwise_functions hc) (Contract.mem_functions.mpr hf) ?_ hstop⟩
      · omega
      · omega
      · omega

/-- A contract that is being written. -/
def unfinished : String :=
  "contract C \x7b function f() \x7b uint x = 1;"

def unfinishedBody (textEnd : Nat) : Body :=
  ⟨⟨26, textEnd⟩, [⟨.named "uint", ⟨"x", ⟨33, 34⟩⟩, ⟨28, 34⟩⟩]⟩

def unfinishedFunction (textEnd : Nat) : Function :=
  ⟨.function, ⟨"f", ⟨22, 23⟩⟩, [], [], some (unfinishedBody textEnd), ⟨13, 39⟩⟩

def unfinishedContract (textEnd : Nat) : Contract :=
  ⟨.contract, false, ⟨"C", ⟨9, 10⟩⟩, [], [.function (unfinishedFunction textEnd)], ⟨0, 39⟩⟩

theorem function_contains_body_of_unfinished :
    ∃ c ∈ (readOutline unfinished).outline.contracts, ∃ f b, .function f ∈ c.members ∧
      f.body = some b ∧ b.range = ⟨26, 39⟩ ∧ f.range = ⟨13, 39⟩ ∧
      ∀ (rules : ImportRules) (path : Path),
        (Viewpoint.ofOffset (Table.load rules path unfinished) 39).IsInside c f := by
  have hc : unfinishedContract 39 ∈ (readOutline unfinished).outline.contracts := by decide +kernel
  have hf : .function (unfinishedFunction 39) ∈ (unfinishedContract 39).members :=
    List.mem_cons_self
  have hlast : lastStop (significant unfinished) = 39 := by decide +kernel
  obtain ⟨-, -, -, hview⟩ := function_contains_body_iff unfinished _ _ _ hc hf rfl
  refine ⟨_, hc, _, _, hf, rfl, rfl, rfl, fun rules path => ?_⟩
  exact (hview rules path 39 (by decide)).mpr hlast.ge

def unfinishedLine : String :=
  "contract C \x7b function f() \x7b uint x = 1; "

/-- The body runs to the end of the text and the function does not, so behind the blank there is no
function around the offset. -/
theorem body_of_unfinishedLine :
    ∃ c ∈ (readOutline unfinishedLine).outline.contracts, ∃ f b, .function f ∈ c.members ∧
      f.body = some b ∧ b.range = ⟨26, 40⟩ ∧ f.range = ⟨13, 39⟩ ∧ c.range = ⟨0, 39⟩ ∧
      ∀ (rules : ImportRules) (path : Path),
        ¬(Viewpoint.ofOffset (Table.load rules path unfinishedLine) 40).IsInside c f := by
  have hc : unfinishedContract 40 ∈ (readOutline unfinishedLine).outline.contracts := by
    decide +kernel
  refine ⟨_, hc, unfinishedFunction 40, unfinishedBody 40, List.mem_cons_self, rfl, rfl, rfl, rfl,
    fun rules path => ?_⟩
  rw [Viewpoint.isInside_ofOffset_iff]
  rintro ⟨hfind, -⟩
  have hnone : (readOutline unfinishedLine).outline.contracts.find?
      (fun c => c.range.touches 40) = none := by decide +kernel
  rw [hnone] at hfind
  cases hfind

end SolidityCompass
