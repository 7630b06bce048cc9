import Mathlib.Order.Bounds.Basic
import Mathlib.Order.WellFounded
import SolidityCompass.Proofs.BreadthFirst
import SolidityCompass.Proofs.Paths
import SolidityCompass.Proofs.TableEntries

/-!
# A table holds the import closure of its document

`ImportRules.Chain` says which paths a number of import directives leads to, each one resolved
against the file that holds it. A table holds the document and exactly the files at the end of
such chains that can be read, each once, in the order of their distance. All of this follows from
what the walk of the builder loads behind the document.
-/

namespace SolidityCompass

namespace ImportRules

/-- An import leads to the same file from all spellings of its importer. -/
theorem resolve_congr (rules : ImportRules) {p q : Path} (h : p.components = q.components)
    (path : String) : rules.resolve path p = rules.resolve path q := by
  have hremapped : rules.remappedFile? path p = rules.remappedFile? path q := by
    simp only [remappedFile?, Remapping.appliesTo, Path.isUnder, h]
  have hbeside : ((rules.directoryOf p).join path).normalize =
      ((rules.directoryOf q).join path).normalize := by
    unfold directoryOf
    rcases Path.parent?_congr h with ⟨hp, hq⟩ | ⟨d, e, hp, hq, hde⟩
    · rw [hp, hq]
    · rw [hp, hq]
      exact Path.normalize_join_congr hde path
  simp only [resolve, hremapped, relativeFile, hbeside]

section chain

variable (rules : ImportRules) (document : Path) (text : String)

def textAt? (path : Path) : Option String :=
  if path.same document then some text else (rules.store.read path).toOption

/-- The file at `path` can be read and holds an import directive that leads to `target`. -/
def Imports (path target : Path) : Prop :=
  ∃ content, rules.textAt? document text path = some content ∧
    ∃ i ∈ (readOutline content).outline.imports, rules.resolve i.path path = target

inductive Chain : Nat → Path → Prop
  | document : Chain 0 document
  | step {n : Nat} {path target : Path} (h : Chain n path)
    (himports : rules.Imports document text path target) : Chain (n + 1) target

def Within (n : Nat) (path : Path) : Prop :=
  ∃ m ≤ n, ∃ spelling, rules.Chain document text m spelling ∧ spelling.components = path.components

/-- The least number of import directives that leads from the document to a path. -/
def IsDistance (path : Path) (n : Nat) : Prop :=
  IsLeast {m | ∃ spelling, rules.Chain document text m spelling ∧ spelling.same path = true} n

end chain

variable {rules : ImportRules} {document : Path} {text : String}

theorem textAt?_of_same {path : Path} (h : path.components = document.components) :
    rules.textAt? document text path = some text := by
  rw [textAt?, if_pos (Path.same_iff.mpr h)]

theorem textAt?_eq_some_of_ne {path : Path} {content : String}
    (h : path.components ≠ document.components) :
    rules.textAt? document text path = some content ↔ rules.store.read path = .ok content := by
  rw [textAt?, if_neg (by simpa [Path.same] using h)]
  cases rules.store.read path <;> simp [Except.toOption]

theorem textAt?_congr {p q : Path} {content : String} (h : p.components = q.components) :
    rules.textAt? document text p = some content ↔
      rules.textAt? document text q = some content := by
  by_cases hq : q.components = document.components
  · rw [textAt?_of_same hq, textAt?_of_same (h.trans hq)]
  · rw [textAt?_eq_some_of_ne hq, textAt?_eq_some_of_ne (h ▸ hq), rules.store.read_ok_congr h]

/-- A file leads to the same targets from all of its spellings. -/
theorem Imports.congr {p q target : Path} (h : p.components = q.components)
    (himports : rules.Imports document text p target) : rules.Imports document text q target := by
  obtain ⟨content, hcontent, i, hi, rfl⟩ := himports
  exact ⟨content, (textAt?_congr h).mp hcontent, i, hi, (rules.resolve_congr h i.path).symm⟩

end ImportRules

namespace Table

open Builder

section document

variable {rules : ImportRules} {document : Path} {text : String} {later : List (Path × String)}

theorem exists_later_of_split {later front back : List (Path × String)} {a e d : Path × String}
    (hsplit : d :: later = front ++ e :: back) (ha : a ∈ front) :
    ∃ before, front = d :: before ∧ later = before ++ e :: back := by
  cases front with
  | nil => simp at ha
  | cons first before =>
    obtain ⟨rfl, hlater⟩ := List.cons.inj hsplit
    exact ⟨before, rfl, hlater⟩

abbrev FromDocument (rules : ImportRules) (document : Path) (text : String)
    (later : List (Path × String)) : Prop :=
  Layered rules (start document text).front later

namespace FromDocument

variable (h : FromDocument rules document text later)

include h

theorem ne_document {e : Path × String} (he : e ∈ later) :
    e.1.components ≠ document.components := by
  have hnew := h.isNew e he
  intro heq
  simp [start, Frontier.hasVisited, Path.same, heq] at hnew

theorem textAt?_eq {e : Path × String} (he : e ∈ (document, text) :: later) :
    rules.textAt? document text e.1 = some e.2 := by
  rcases List.mem_cons.mp he with rfl | he
  · exact ImportRules.textAt?_of_same rfl
  · exact (ImportRules.textAt?_eq_some_of_ne (h.ne_document he)).mpr (h.readable e he)

theorem imports_iff {e : Path × String} (he : e ∈ (document, text) :: later) (target : Path) :
    rules.Imports document text e.1 target ↔
      target ∈ rules.targets e.1 e.2 := by
  rw [ImportRules.Imports, h.textAt?_eq he]
  simp [ImportRules.targets]

/-- Every loaded file is at the end of a chain, since it stands behind a file that imports it. -/
theorem exists_chain {e : Path × String} (he : e ∈ (document, text) :: later) :
    ∃ n, rules.Chain document text n e.1 := by
  have hfront : ∀ front, front <+: later → ∀ e ∈ (document, text) :: front,
      ∃ n, rules.Chain document text n e.1 := by
    intro front
    induction front using List.reverseRecOn with
    | nil =>
      intro _ e he
      obtain rfl := List.mem_singleton.mp he
      exact ⟨0, .document⟩
    | append_singleton front last ih =>
      rintro ⟨back, hlater⟩ e he
      have hsplit : later = front ++ last :: back := by simpa using hlater.symm
      have hbefore := ih ⟨last :: back, hsplit.symm⟩
      rw [← List.cons_append] at he
      rcases List.mem_append.mp he with he | he
      · exact hbefore e he
      · obtain rfl := List.mem_singleton.mp he
        obtain ⟨e', he', htarget⟩ := h.imported front e back hsplit
        obtain ⟨n, hn⟩ := hbefore e' he'
        have hmem : e' ∈ (document, text) :: later := by
          rw [hsplit, ← List.cons_append]
          exact List.mem_append_left _ he'
        exact ⟨n + 1, .step hn ((h.imports_iff hmem _).mpr htarget)⟩
  exact hfront later List.prefix_rfl e he

/-- The end of a chain is loaded if it can be read: by induction on the chain, the files on its
way are loaded, and what a loaded file imports is loaded. -/
theorem exists_mem_of_chain {n : Nat} {path : Path} {content : String}
    (hchain : rules.Chain document text n path)
    (hcontent : rules.textAt? document text path = some content) :
    ∃ e ∈ (document, text) :: later, e.1.components = path.components := by
  induction hchain generalizing content with
  | document => exact ⟨_, List.mem_cons_self, rfl⟩
  | @step n path target _ himports ih =>
    by_cases hdoc : target.components = document.components
    · exact ⟨_, List.mem_cons_self, hdoc.symm⟩
    · obtain ⟨content', hcontent', -⟩ := id himports
      obtain ⟨e, he, heq⟩ := ih hcontent'
      have htarget := (h.imports_iff he target).mp (himports.congr heq.symm)
      have hread := (ImportRules.textAt?_eq_some_of_ne hdoc).mp hcontent
      have hnew : (start document text).front.hasVisited target = false := by
        simpa [start, Frontier.hasVisited, Path.same] using Ne.symm hdoc
      obtain ⟨e', he', heq'⟩ := h.closed e he target htarget hnew content hread
      exact ⟨e', List.mem_cons_of_mem _ he', heq'⟩

theorem pairwise_ne :
    ((document, text) :: later).Pairwise (fun a b => a.1.components ≠ b.1.components) :=
  List.pairwise_cons.mpr ⟨fun _ he heq => h.ne_document he heq.symm, h.distinct⟩

/-- No file stands in front of one that is nearer to the document. The induction is on the chain:
what imports the later file is near enough, and so are all files in front of it, one of which
imports the earlier file. -/
theorem within_of_before {n : Nat} {path : Path} (hchain : rules.Chain document text n path)
    {front back : List (Path × String)} {e : Path × String}
    (hsplit : (document, text) :: later = front ++ e :: back)
    (hpath : path.components = e.1.components) {a : Path × String} (ha : a ∈ front) :
    rules.Within document text n a.1 := by
  induction hchain generalizing front back e a with
  | document =>
    obtain ⟨before, rfl, hlater⟩ := exists_later_of_split hsplit ha
    exact absurd hpath.symm (h.ne_document (by simp [hlater]))
  | @step n path target hn himports ih =>
    obtain ⟨before, rfl, hlater⟩ := exists_later_of_split hsplit ha
    rcases List.mem_cons.mp ha with rfl | ha
    · exact ⟨0, Nat.zero_le _, document, .document, rfl⟩
    · obtain ⟨content, hcontent, -⟩ := id himports
      obtain ⟨importer, himporter, heq⟩ := h.exists_mem_of_chain hn hcontent
      obtain ⟨loaded, rest, hloaded⟩ := List.append_of_mem himporter
      have hnear : ∀ x ∈ loaded ++ [importer], rules.Within document text n x.1 := by
        intro x hx
        rcases List.mem_append.mp hx with hx | hx
        · exact ih hloaded heq.symm hx
        · obtain rfl := List.mem_singleton.mp hx
          exact ⟨n, Nat.le_refl n, path, hn, heq.symm⟩
      have himported : Imported rules (loaded ++ [importer]) e.1 :=
        ⟨importer, by simp, target,
          (h.imports_iff himporter target).mp (himports.congr heq.symm), hpath⟩
      have hinit : loaded ++ [importer] <+: [(document, text)] ++ later :=
        ⟨rest, by simpa using hloaded.symm⟩
      have hpairs := h.ordered
      rw [hlater] at hpairs hinit
      obtain ⟨x, hx, t, ht, hta⟩ := (List.pairwise_append.mp hpairs).2.2 a ha e (by simp)
        (loaded ++ [importer]) hinit himported
      obtain ⟨m, hm, s, hs, hsx⟩ := hnear x hx
      have hmem : x ∈ (document, text) :: later := by
        rw [hlater]
        exact hinit.mem hx
      have hstep := ((h.imports_iff hmem t).mpr ht).congr hsx.symm
      exact ⟨m + 1, Nat.succ_le_succ hm, t, .step hs hstep, hta⟩

theorem exists_isDistance {e : Path × String} (he : e ∈ (document, text) :: later) :
    ∃ n, rules.IsDistance document text e.1 n := by
  obtain ⟨n, hn⟩ := h.exists_chain he
  have hne : {m | ∃ spelling, rules.Chain document text m spelling ∧
      spelling.same e.1 = true}.Nonempty := ⟨n, e.1, hn, Path.same_iff.mpr rfl⟩
  obtain ⟨m, hm, hmin⟩ := WellFounded.has_min Nat.lt_wfRel.wf _ hne
  exact ⟨m, hm, fun k hk => Nat.le_of_not_lt (hmin k hk)⟩

theorem distance_le_of_before {front back : List (Path × String)} {a e : Path × String}
    (hsplit : (document, text) :: later = front ++ e :: back) (ha : a ∈ front) {m n : Nat}
    (hm : rules.IsDistance document text a.1 m) (hn : rules.IsDistance document text e.1 n) :
    m ≤ n := by
  obtain ⟨spelling, hchain, hsame⟩ := hn.1
  obtain ⟨k, hk, spelling', hchain', hsame'⟩ :=
    h.within_of_before hchain hsplit (Path.same_iff.mp hsame) ha
  exact Nat.le_trans (hm.2 ⟨spelling', hchain', Path.same_iff.mpr hsame'⟩) hk

/-- A path other than the document's is loaded exactly if it can be read and a chain leads to it. -/
theorem exists_mem_iff {path : Path} (hpath : path.components ≠ document.components) :
    (∃ e ∈ (document, text) :: later, e.1.components = path.components) ↔
      (∃ content, rules.store.read path = .ok content) ∧
        ∃ n spelling, rules.Chain document text n spelling ∧ spelling.same path = true := by
  constructor
  · rintro ⟨e, he, heq⟩
    have htext := h.textAt?_eq he
    rw [ImportRules.textAt?_eq_some_of_ne (heq ▸ hpath)] at htext
    obtain ⟨n, hn⟩ := h.exists_chain he
    exact ⟨⟨e.2, (rules.store.read_ok_congr heq e.2).mp htext⟩, n, e.1, hn, Path.same_iff.mpr heq⟩
  · rintro ⟨⟨content, hread⟩, n, spelling, hchain, hsame⟩
    have heq := Path.same_iff.mp hsame
    have htext : rules.textAt? document text spelling = some content :=
      (ImportRules.textAt?_congr heq).mpr ((ImportRules.textAt?_eq_some_of_ne hpath).mpr hread)
    obtain ⟨e, he, heq'⟩ := h.exists_mem_of_chain hchain htext
    exact ⟨e, he, heq'.trans heq⟩

end FromDocument

end document

/-- A file is known by its number, which is its index: looking up its path gives the number, and
declarations and imports carry the number of the file whose text holds them. -/
structure NumbersFiles (rules : ImportRules) (table : Table) : Prop where
  numbered : ∀ (index : Nat) (file : SourceFile), table.files[index]? = some file → file.id = index
  lookup : ∀ (index : Nat) (file : SourceFile), table.files[index]? = some file →
    table.fileAt? file.path = some index
  contract : ∀ c ∈ table.contracts, ∃ file, table.files[c.home.file]? = some file ∧
    .contract c.decl ∈ (readOutline file.text).outline.items
  struct : ∀ s ∈ table.structs, ∃ file, table.files[s.home.file]? = some file ∧
    .struct s.decl ∈ (readOutline file.text).outline.items
  enum : ∀ e ∈ table.enums, ∃ file, table.files[e.home.file]? = some file ∧
    .enum e.decl ∈ (readOutline file.text).outline.items
  link : ∀ index link, (index, link) ∈ table.links → ∃ file i, table.files[index]? = some file ∧
    i ∈ (readOutline file.text).outline.imports ∧
    link = ⟨i.literal, rules.resolve i.path file.path⟩

theorem fileAt?_of_pairwise {table : Table} {index : Nat} {file : SourceFile}
    (h : table.files.Pairwise (fun f g => f.path.same g.path = false))
    (hid : file.id = index) (hfile : table.files[index]? = some file) :
    table.fileAt? file.path = some index := by
  have hfound : table.sourceAt? file.path = some file := by
    obtain ⟨hlt, rfl⟩ := List.getElem?_eq_some_iff.mp hfile
    rw [sourceAt?, List.find?_eq_some_iff_getElem]
    refine ⟨Path.same_iff.mpr rfl, index, hlt, rfl, fun j hj => ?_⟩
    simpa using List.pairwise_iff_getElem.mp h j index (Nat.lt_trans hj hlt) hlt hj
  rw [fileAt?, hfound, Option.map_some, hid]

/-- The document and the files behind it are numbered in the order in which they are loaded. -/
theorem exists_fromDocument (rules : ImportRules) (document : Path) (text : String) :
    ∃ later, FromDocument rules document text later ∧
      (∀ (index : Nat) (file : SourceFile), (load rules document text).files[index]? = some file →
        file.id = index) ∧
      (load rules document text).files.map (fun file => (file.path, file.text)) =
        (document, text) :: later := by
  obtain ⟨later, hlater, hfiles⟩ := exists_layered_run rules (start document text)
  have hload : (load rules document text).files =
      ((document, text) :: later).mapIdx fun i e => ⟨i, e.1, e.2⟩ :=
    hfiles.trans (by simp [start, Symbols.empty])
  refine ⟨later, hlater, fun index file hfile => ?_, ?_⟩
  · rw [hload, List.getElem?_mapIdx] at hfile
    obtain ⟨e, -, rfl⟩ := Option.map_eq_some_iff.mp hfile
    rfl
  · refine List.ext_getElem? fun i => ?_
    rw [hload, List.getElem?_map, List.getElem?_mapIdx, Option.map_map]
    exact Option.map_id'

/-- A table begins with the document in the given text; its paths are pairwise different; another
path is among them exactly if it can be read and a chain of imports leads to it; every file has
the text that is read at its path and is known by its number; and the files stand in the order of
their distance from the document. -/
theorem load_importClosure (rules : ImportRules) (document : Path) (text : String) :
    let table := load rules document text
    table.files.head? = some ⟨0, document, text⟩ ∧
      table.files.Pairwise (fun f g => f.path.same g.path = false) ∧
      (∀ path, path.same document = false →
        ((∃ file ∈ table.files, file.path.same path = true) ↔
          (∃ content, rules.store.read path = .ok content) ∧
            ∃ n spelling, rules.Chain document text n spelling ∧ spelling.same path = true)) ∧
      (∀ file ∈ table.files, rules.textAt? document text file.path = some file.text) ∧
      table.NumbersFiles rules ∧
      (∀ file ∈ table.files, ∃ n, rules.IsDistance document text file.path n) ∧
      table.files.Pairwise (fun f g => ∀ m n, rules.IsDistance document text f.path m →
        rules.IsDistance document text g.path n → m ≤ n) := by
  intro table
  obtain ⟨later, h, hnumbered, hfiles⟩ := exists_fromDocument rules document text
  have hloaded : ∀ file ∈ table.files, (file.path, file.text) ∈ (document, text) :: later :=
    fun file hfile => hfiles ▸ List.mem_map_of_mem hfile
  have hpairwise : table.files.Pairwise (fun f g => f.path.same g.path = false) := by
    have hne := h.pairwise_ne
    rw [← hfiles, List.pairwise_map] at hne
    exact hne.imp fun hne => Path.same_eq_false_iff.mpr hne
  have hread := isRead_load rules document text
  have htext : ∀ file ∈ table.files, rules.textAt? document text file.path = some file.text := by
    intro file hfile
    have heq := h.textAt?_eq (hloaded file hfile)
    exact heq
  have hdistance : ∀ file ∈ table.files, ∃ n, rules.IsDistance document text file.path n := by
    intro file hfile
    have hn := h.exists_isDistance (hloaded file hfile)
    exact hn
  refine ⟨?_, hpairwise, ?_, htext, ?_, hdistance, ?_⟩
  · obtain ⟨more, hmore⟩ := exists_files_load rules document text
    rw [hmore, List.head?_cons]
  · intro path hpath
    rw [← h.exists_mem_iff (Path.same_eq_false_iff.mp hpath), ← hfiles]
    simp only [List.mem_map, exists_exists_and_eq_and, Path.same_iff]
    rfl
  · exact {
      numbered := hnumbered
      lookup := fun index file hfile =>
        fileAt?_of_pairwise hpairwise (hnumbered index file hfile) hfile
      contract := fun c hc => hread.exists_file_of_contract hc
      struct := fun s hs => hread.exists_file_of_struct hs
      enum := fun e he => hread.exists_file_of_enum he
      link := fun index link hlink => hread.exists_file_of_link hlink }
  · have hordered : ((document, text) :: later).Pairwise (fun a e => ∀ m n,
        rules.IsDistance document text a.1 m → rules.IsDistance document text e.1 n → m ≤ n) := by
      rw [List.pairwise_iff_forall_sublist]
      intro a e hsub m n hm hn
      obtain ⟨front, back, hsplit, ha, he⟩ := List.cons_sublist_iff.mp hsub
      obtain ⟨before, after, rfl⟩ := List.append_of_mem (List.singleton_sublist.mp he)
      exact h.distance_le_of_before (by rw [hsplit, List.append_assoc])
        (List.mem_append_left before ha) hm hn
    rwa [← hfiles, List.pairwise_map] at hordered

end Table

end SolidityCompass
