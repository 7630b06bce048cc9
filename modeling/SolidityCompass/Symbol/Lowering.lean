import SolidityCompass.Symbol.Table

/-!
# Lowering a file

The declarations of a file are added to the lists of a table one by one, in the order of the text,
before the file itself is. `Adds` says what some items add, and it holds of each item and so of all
items of a file.
-/

namespace SolidityCompass

def ImportRules.targets (rules : ImportRules) (path : Path) (text : String) : List Path :=
  (readOutline text).outline.imports.map fun i => rules.resolve i.path path

namespace Symbols

/-- Adds an item of a file; an import is also a target for the walk over the files. -/
def lowerItem (rules : ImportRules) (file : Nat) (path : Path) (state : Symbols × List Path) :
    Item → Symbols × List Path
  | .fileImport i =>
    let target := rules.resolve i.path path
    (state.1.addLink file ⟨i.literal, target⟩, state.2 ++ [target])
  | .contract c => (state.1.addContract ⟨c, ⟨file, none⟩⟩, state.2)
  | .struct s => (state.1.addStruct ⟨s, ⟨file, none⟩⟩, state.2)
  | .enum e => (state.1.addEnum ⟨e, ⟨file, none⟩⟩, state.2)

def lower (symbols : Symbols) (rules : ImportRules) (file : Nat) (path : Path) (text : String) :
    Symbols × List Path :=
  (readOutline text).outline.items.foldl (lowerItem rules file path) (symbols, [])

structure Adds (rules : ImportRules) (file : Nat) (path : Path) (items : List Item)
    (before after : Symbols × List Path) : Prop where
  files : after.1.files = before.1.files
  contracts : after.1.contracts = before.1.contracts ++
    (Outline.mk items).contracts.map (⟨·, ⟨file, none⟩⟩)
  structs : after.1.structs = before.1.structs ++
    (Outline.mk items).structs.map (⟨·, ⟨file, none⟩⟩)
  enums : after.1.enums = before.1.enums ++ (Outline.mk items).enums.map (⟨·, ⟨file, none⟩⟩)
  links : after.1.links = before.1.links ++
    (Outline.mk items).imports.map fun i => (file, ⟨i.literal, rules.resolve i.path path⟩)
  targets : after.2 = before.2 ++ (Outline.mk items).imports.map fun i => rules.resolve i.path path
  indexed : before.1.Indexed → after.1.Indexed

variable {rules : ImportRules} {file : Nat} {path : Path} {items : List Item}
  {state : Symbols × List Path}

theorem adds_nil : Adds rules file path [] state state := by
  constructor <;> simp [Outline.contracts, Outline.structs, Outline.enums, Outline.imports]

theorem adds_lowerItem (rules : ImportRules) (file : Nat) (path : Path)
    (state : Symbols × List Path) (item : Item) :
    Adds rules file path [item] state (lowerItem rules file path state item) := by
  cases item with
  | fileImport i =>
    constructor
    case indexed => exact fun h => h.addLink _ _
    all_goals simp [lowerItem, addLink, Outline.contracts, Outline.structs, Outline.enums,
      Outline.imports]
  | contract c =>
    constructor
    case indexed => exact fun h => h.addContract _
    all_goals simp [lowerItem, addContract, Outline.contracts, Outline.structs, Outline.enums,
      Outline.imports]
  | struct s =>
    constructor
    case indexed => exact fun h => h.addStruct _
    all_goals simp [lowerItem, addStruct, Outline.contracts, Outline.structs, Outline.enums,
      Outline.imports]
  | enum e =>
    constructor
    case indexed => exact fun h => h.addEnum _
    all_goals simp [lowerItem, addEnum, Outline.contracts, Outline.structs, Outline.enums,
      Outline.imports]

theorem Adds.append {more : List Item} {next last : Symbols × List Path}
    (h : Adds rules file path items state next) (hs : Adds rules file path more next last) :
    Adds rules file path (items ++ more) state last := by
  constructor
  case files => rw [hs.files, h.files]
  case indexed => exact hs.indexed ∘ h.indexed
  case contracts =>
    rw [hs.contracts, h.contracts]
    simp [Outline.contracts, List.filterMap_append]
  case structs =>
    rw [hs.structs, h.structs]
    simp [Outline.structs, List.filterMap_append]
  case enums =>
    rw [hs.enums, h.enums]
    simp [Outline.enums, List.filterMap_append]
  case links =>
    rw [hs.links, h.links]
    simp [Outline.imports, List.filterMap_append]
  case targets =>
    rw [hs.targets, h.targets]
    simp [Outline.imports, List.filterMap_append]

theorem adds_foldl (rules : ImportRules) (file : Nat) (path : Path) (items : List Item)
    (state : Symbols × List Path) :
    Adds rules file path items state (items.foldl (lowerItem rules file path) state) := by
  induction items generalizing state with
  | nil => exact adds_nil
  | cons item items ih => exact (adds_lowerItem rules file path state item).append (ih _)

theorem adds_lower (symbols : Symbols) (rules : ImportRules) (file : Nat) (path : Path)
    (text : String) :
    Adds rules file path (readOutline text).outline.items (symbols, [])
      (symbols.lower rules file path text) :=
  adds_foldl rules file path _ _

theorem lower_snd (symbols : Symbols) (rules : ImportRules) (file : Nat) (path : Path)
    (text : String) : (symbols.lower rules file path text).2 = rules.targets path text := by
  simpa [ImportRules.targets] using (symbols.adds_lower rules file path text).targets

/-- A declaration is at home where it was, or in the file that was lowered. -/
theorem mem_homes_lower {symbols : Symbols} {text : String} {home : Nat}
    (h : home ∈ (symbols.lower rules file path text).1.homes) :
    home ∈ symbols.homes ∨ home = file := by
  obtain ⟨-, hcontracts, hstructs, henums, -, -, -⟩ := symbols.adds_lower rules file path text
  simp only [homes, hcontracts, hstructs, henums, List.map_append, List.map_map,
    List.mem_append, List.mem_map, Function.comp_apply] at h ⊢
  grind

end Symbols

end SolidityCompass
