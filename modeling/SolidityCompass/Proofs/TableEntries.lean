import SolidityCompass.Symbol.Loading

/-!
# The entries of a table

The entries of a table are the items that the texts of its files hold, file after file and in each
file in the order of the text. The lists of a table hold what its entries give: a step of the
builder puts the declarations of one more file behind those that are there, under the number that
the file has once it is added.
-/

namespace SolidityCompass

namespace Item

def contract? : Item → Option Contract
  | contract c => some c
  | _ => none

def struct? : Item → Option Struct
  | struct s => some s
  | _ => none

def enum? : Item → Option Enum
  | enum e => some e
  | _ => none

def import? : Item → Option Import
  | fileImport i => some i
  | _ => none

end Item

/-- An item with the number and the path of its file. -/
structure Entry where
  file : Nat
  path : Path
  item : Item
deriving Repr, DecidableEq, Inhabited

namespace Entry

def declared? {α : Type} (pick : Item → Option α) (entry : Entry) : Option (Declared α) :=
  (pick entry.item).map (⟨·, ⟨entry.file, none⟩⟩)

def link? (rules : ImportRules) (entry : Entry) : Option (Nat × Link) :=
  entry.item.import?.map fun i => (entry.file, ⟨i.literal, rules.resolve i.path entry.path⟩)

end Entry

namespace Symbols

def entries (symbols : Symbols) : List Entry :=
  (symbols.files.mapIdx fun index file =>
    (readOutline file.text).outline.items.map (⟨index, file.path, ·⟩)).flatten

variable {symbols : Symbols} {rules : ImportRules}

theorem mem_entries {entry : Entry} : entry ∈ symbols.entries ↔
    ∃ file, symbols.files[entry.file]? = some file ∧ entry.path = file.path ∧
      entry.item ∈ (readOutline file.text).outline.items := by
  simp only [entries, List.mem_flatten, List.mem_mapIdx]
  constructor
  · rintro ⟨_, ⟨index, hindex, rfl⟩, hentry⟩
    obtain ⟨item, hitem, rfl⟩ := List.mem_map.mp hentry
    exact ⟨_, List.getElem?_eq_getElem hindex, rfl, hitem⟩
  · rintro ⟨file, hfile, hpath, hitem⟩
    obtain ⟨hindex, rfl⟩ := List.getElem?_eq_some_iff.mp hfile
    exact ⟨_, ⟨_, hindex, rfl⟩, List.mem_map.mpr ⟨_, hitem, by rw [← hpath]⟩⟩

/-- The declarations and the links are what the entries give. -/
structure IsRead (rules : ImportRules) (symbols : Symbols) : Prop where
  contracts : symbols.contracts = symbols.entries.filterMap (Entry.declared? Item.contract?)
  structs : symbols.structs = symbols.entries.filterMap (Entry.declared? Item.struct?)
  enums : symbols.enums = symbols.entries.filterMap (Entry.declared? Item.enum?)
  links : symbols.links = symbols.entries.filterMap (Entry.link? rules)

theorem isRead_empty : empty.IsRead rules := by
  constructor <;> rfl

/-- The home of a declaration at file level is the file that holds it. -/
theorem exists_file_of_mem {α : Type} {pick : Item → Option α} {d : Declared α}
    (h : d ∈ symbols.entries.filterMap (Entry.declared? pick)) :
    ∃ file item, symbols.files[d.home.file]? = some file ∧
      item ∈ (readOutline file.text).outline.items ∧ pick item = some d.decl := by
  obtain ⟨entry, hentry, hd⟩ := List.mem_filterMap.mp h
  obtain ⟨decl, hpick, rfl⟩ := Option.map_eq_some_iff.mp hd
  obtain ⟨file, hfile, -, hitem⟩ := mem_entries.mp hentry
  exact ⟨file, entry.item, hfile, hitem, hpick⟩

theorem IsRead.exists_file_of_contract (h : symbols.IsRead rules) {c : Declared Contract}
    (hc : c ∈ symbols.contracts) : ∃ file, symbols.files[c.home.file]? = some file ∧
      .contract c.decl ∈ (readOutline file.text).outline.items := by
  obtain ⟨file, item, hfile, hitem, hpick⟩ := exists_file_of_mem (h.contracts ▸ hc)
  cases item <;> simp_all [Item.contract?]

theorem IsRead.exists_file_of_struct (h : symbols.IsRead rules) {s : Declared Struct}
    (hs : s ∈ symbols.structs) : ∃ file, symbols.files[s.home.file]? = some file ∧
      .struct s.decl ∈ (readOutline file.text).outline.items := by
  obtain ⟨file, item, hfile, hitem, hpick⟩ := exists_file_of_mem (h.structs ▸ hs)
  cases item <;> simp_all [Item.struct?]

theorem IsRead.exists_file_of_enum (h : symbols.IsRead rules) {e : Declared Enum}
    (he : e ∈ symbols.enums) : ∃ file, symbols.files[e.home.file]? = some file ∧
      .enum e.decl ∈ (readOutline file.text).outline.items := by
  obtain ⟨file, item, hfile, hitem, hpick⟩ := exists_file_of_mem (h.enums ▸ he)
  cases item <;> simp_all [Item.enum?]

theorem IsRead.exists_file_of_link (h : symbols.IsRead rules) {index : Nat} {link : Link}
    (hlink : (index, link) ∈ symbols.links) : ∃ file i, symbols.files[index]? = some file ∧
      i ∈ (readOutline file.text).outline.imports ∧
      link = ⟨i.literal, rules.resolve i.path file.path⟩ := by
  rw [h.links] at hlink
  obtain ⟨entry, hentry, hfound⟩ := List.mem_filterMap.mp hlink
  obtain ⟨i, hi, heq⟩ := Option.map_eq_some_iff.mp hfound
  cases heq
  obtain ⟨file, hfile, hpath, hitem⟩ := mem_entries.mp hentry
  exact ⟨file, i, hfile, List.mem_filterMap.mpr ⟨_, hitem, hi⟩, by rw [hpath]⟩

/-- The contracts of the first file come first, and the others are at home elsewhere. -/
theorem IsRead.exists_contracts_eq (h : symbols.IsRead rules) {file : SourceFile}
    {more : List SourceFile} (hfiles : symbols.files = file :: more) :
    ∃ later, symbols.contracts =
        (readOutline file.text).outline.contracts.map (⟨·, ⟨0, none⟩⟩) ++ later ∧
      ∀ c ∈ later, c.home.file ≠ 0 := by
  rw [h.contracts, entries, hfiles, List.mapIdx_cons, List.flatten_cons, List.filterMap_append,
    List.filterMap_map]
  refine ⟨_, congrArg (· ++ _) (by rw [Outline.contracts, List.map_filterMap]; rfl), ?_⟩
  intro c hc
  obtain ⟨entry, hentry, hdeclared⟩ := List.mem_filterMap.mp hc
  obtain ⟨decl, -, rfl⟩ := Option.map_eq_some_iff.mp hdeclared
  obtain ⟨_, hindexed, hitem⟩ := List.mem_flatten.mp hentry
  obtain ⟨index, _, rfl⟩ := List.mem_mapIdx.mp hindexed
  obtain ⟨item, -, rfl⟩ := List.mem_map.mp hitem
  exact Nat.succ_ne_zero index

end Symbols

namespace Builder

variable {rules : ImportRules} {b next : Builder}

/-- Lowering a file and adding it keeps the lists in step with the files. -/
theorem isRead_step (h : b.step rules = some next) (hb : b.symbols.IsRead rules) :
    next.symbols.IsRead rules := by
  obtain ⟨path, text, queue, -, hsymbols, -⟩ := step_eq_some_iff.mp h
  have hadds := b.symbols.adds_lower rules b.symbols.files.length path text
  have hentries : next.symbols.entries = b.symbols.entries ++
      (readOutline text).outline.items.map (⟨b.symbols.files.length, path, ·⟩) := by
    simp [hsymbols, Symbols.entries, Symbols.addFile, hadds.files, List.mapIdx_append]
  constructor
  case contracts =>
    rw [hentries, List.filterMap_append, ← hb.contracts, hsymbols, List.filterMap_map]
    exact hadds.contracts.trans (by rw [Outline.contracts, List.map_filterMap]; rfl)
  case structs =>
    rw [hentries, List.filterMap_append, ← hb.structs, hsymbols, List.filterMap_map]
    exact hadds.structs.trans (by rw [Outline.structs, List.map_filterMap]; rfl)
  case enums =>
    rw [hentries, List.filterMap_append, ← hb.enums, hsymbols, List.filterMap_map]
    exact hadds.enums.trans (by rw [Outline.enums, List.map_filterMap]; rfl)
  case links =>
    rw [hentries, List.filterMap_append, ← hb.links, hsymbols, List.filterMap_map]
    exact hadds.links.trans (by rw [Outline.imports, List.map_filterMap]; rfl)

theorem isRead_run (hb : b.symbols.IsRead rules) : (b.run rules).IsRead rules := by
  fun_induction run rules b with
  | case1 b h => exact hb
  | case2 b next h _ ih => exact ih (isRead_step h hb)

end Builder

theorem Table.isRead_load (rules : ImportRules) (path : Path) (text : String) :
    (load rules path text).IsRead rules :=
  Builder.isRead_run Symbols.isRead_empty

end SolidityCompass
