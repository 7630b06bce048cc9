import SolidityCompass.Proofs.Lineage
import SolidityCompass.Proofs.NormalPaths
import SolidityCompass.Proofs.OutlineRanges
import SolidityCompass.Proofs.TableEntries

/-!
# A table is its files one behind the other

The lists of a loaded table are what its entries give, so they hold the declarations and imports of
its files and no others, and the first declaration of a name is the one in the earliest file and
there the one that stands first. A link leads to the file that its literal names in the file where
it stands.
-/

namespace SolidityCompass

theorem Outline.mem_imports {outline : Outline} {i : Import} :
    i ∈ outline.imports ↔ .fileImport i ∈ outline.items := by
  constructor
  · intro h
    obtain ⟨x, hx, hi⟩ := List.mem_filterMap.mp h
    cases x <;> simp_all
  · intro h
    exact List.mem_filterMap.mpr ⟨_, h, rfl⟩

namespace Reading

theorem fileImport_of_item {r : Reading} {i : Import} (h : r.item.1 = some (.fileImport i)) :
    r.fileImport.1 = some i := by
  unfold item at h
  split at h <;> simp_all

/-- The path of an import is what stands between the quotes of a token behind the keyword. -/
theorem exists_token_of_fileImport {r : Reading} {i : Import} (h : r.fileImport.1 = some i) :
    ∃ t ∈ r.cursor.advance.rest, i.literal = t.range ∧ i.path = unquote t.text := by
  unfold fileImport at h
  dsimp only at h
  split at h
  next t ht =>
    cases h
    have htaken := List.mem_of_find?_eq_some ht
    exact ⟨t, (List.takeWhile_sublist _).mem htaken, rfl, rfl⟩
  next => cases h

end Reading

/-- The path of an import is what its literal holds between its quotes. -/
theorem exists_literal_of_mem_imports {text : String} {i : Import}
    (h : i ∈ (readOutline text).outline.imports) :
    ∃ literal, IsSlice text i.literal literal ∧ i.path = unquote literal := by
  obtain ⟨r, hwalk, hr⟩ := Reading.exists_walks_of_mem_items (Outline.mem_imports.mp h)
  obtain ⟨t, ht, hliteral, hpath⟩ :=
    Reading.exists_token_of_fileImport (Reading.fileImport_of_item hr)
  obtain ⟨done, hdone, -⟩ := hwalk.on.advance
  have hmem : t ∈ significant text := hdone ▸ List.mem_append_right done ht
  refine ⟨t.text, ?_, hpath⟩
  rw [hliteral]
  exact isSlice_of_mem_tokenize (List.mem_filter.mp hmem).1

/-- The first entry stands in an earlier file, or in front of the second one in the same file. -/
def Entry.Before (a b : Entry) : Prop :=
  a.file < b.file ∨ a.file = b.file ∧ a.item.tree.range.stop ≤ b.item.tree.range.start

theorem Symbols.pairwise_before_entries (symbols : Symbols) :
    symbols.entries.Pairwise Entry.Before := by
  rw [entries, List.pairwise_flatten]
  constructor
  · intro part hpart
    obtain ⟨index, hindex, rfl⟩ := List.mem_mapIdx.mp hpart
    have hrow := (readOutline_row (symbols.files[index]).text).pairwise
    rw [List.pairwise_map] at hrow ⊢
    exact hrow.imp fun h => Or.inr ⟨rfl, h⟩
  · rw [List.pairwise_iff_getElem]
    intro i j hi hj hij a ha b hb
    rw [List.getElem_mapIdx] at ha hb
    obtain ⟨x, -, rfl⟩ := List.mem_map.mp ha
    obtain ⟨y, -, rfl⟩ := List.mem_map.mp hb
    exact Or.inl hij

namespace Table

variable {table : Table} {rules : ImportRules}

theorem isLeast_contractNamed?_iff (table : Table) (name : String) (id : Nat) :
    table.contractNamed? name = some id ↔
      IsLeast {i | ∃ c, table.contracts[i]? = some c ∧ c.decl.name.text = name} id := by
  rw [contractNamed?_eq_some_iff]
  constructor
  · rintro ⟨c, hc, hname, hfirst⟩
    refine ⟨⟨c, hc, hname⟩, ?_⟩
    rintro i ⟨earlier, hearlier, hsame⟩
    exact Nat.le_of_not_lt fun hlt => hfirst i hlt earlier hearlier hsame
  · rintro ⟨⟨c, hc, hname⟩, hleast⟩
    refine ⟨c, hc, hname, fun i hlt earlier hearlier hsame => ?_⟩
    exact Nat.not_le_of_lt hlt (hleast ⟨earlier, hearlier, hsame⟩)

theorem contractNamed?_eq_none_iff (table : Table) (name : String) :
    table.contractNamed? name = none ↔ ∀ c ∈ table.contracts, c.decl.name.text ≠ name := by
  rw [contractNamed?_eq_findIdx?]
  simp [List.findIdx?_eq_none_iff]

/-- An import stands in the file whose number it has, and leads where that file resolves what stands
between its quotes. -/
theorem exists_literal_of_mem_links (h : table.IsRead rules) {index : Nat} {link : Link}
    (hlink : (index, link) ∈ table.links) :
    ∃ file literal, table.files[index]? = some file ∧ IsSlice file.text link.literal literal ∧
      link.target = rules.resolve (unquote literal) file.path := by
  obtain ⟨file, i, hfile, hi, rfl⟩ := h.exists_file_of_link hlink
  obtain ⟨literal, hslice, hpath⟩ := exists_literal_of_mem_imports hi
  exact ⟨file, literal, hfile, hslice, by rw [hpath]⟩

/-- The contracts, structs, enums and links of a loaded table are what its entries give, which
follow each other from file to file and in each file in the order of the text. Every link leads
to the normal path to which its literal is resolved in its file. A name means the first contract
that has it, and none if no contract has it. -/
theorem load_concatenates_entries (rules : ImportRules) (document : Path) (text : String) :
    let table := load rules document text
    table.entries.Pairwise Entry.Before ∧
      table.contracts = table.entries.filterMap (Entry.declared? Item.contract?) ∧
      table.structs = table.entries.filterMap (Entry.declared? Item.struct?) ∧
      table.enums = table.entries.filterMap (Entry.declared? Item.enum?) ∧
      table.links = table.entries.filterMap (Entry.link? rules) ∧
      (∀ index link, (index, link) ∈ table.links →
        ∃ file literal, table.files[index]? = some file ∧
          IsSlice file.text link.literal literal ∧
          link.target = rules.resolve (unquote literal) file.path ∧ link.target.IsNormal) ∧
      ∀ name,
        (∀ id, table.contractNamed? name = some id ↔
          IsLeast {i | ∃ c, table.contracts[i]? = some c ∧ c.decl.name.text = name} id) ∧
        (table.contractNamed? name = none ↔ ∀ c ∈ table.contracts, c.decl.name.text ≠ name) := by
  intro table
  have hread : table.IsRead rules := isRead_load rules document text
  refine ⟨table.pairwise_before_entries, hread.contracts, hread.structs, hread.enums, hread.links,
    ?_, fun name => ⟨table.isLeast_contractNamed?_iff name, table.contractNamed?_eq_none_iff name⟩⟩
  intro index link hlink
  obtain ⟨file, literal, hfile, hslice, htarget⟩ := exists_literal_of_mem_links hread hlink
  refine ⟨file, literal, hfile, hslice, htarget, ?_⟩
  rw [htarget]
  exact rules.isNormal_resolve (unquote literal) file.path

end Table

end SolidityCompass
