import SolidityCompass.Editor.Session
import SolidityCompass.Proofs.ImportClosure
import SolidityCompass.Proofs.Listing

/-!
# What a request reads

Imports are resolved by asking which files there are and never by reading them, import
suggestions name files and never quote them, and loading a document reads the targets of its
imports and of theirs. So two stores with files at the same paths give the same answers as soon
as they agree on the remappings of the root and on what the document imports; no other text of
the store flows into an answer.
-/

namespace SolidityCompass

namespace FileMap

theorem contains_congr (files : FileMap) {p q : Path} (h : p.components = q.components) :
    files.contains p = files.contains q := by
  simp only [contains, Path.same, h]

theorem hasDirectory_iff (files : FileMap) (p : Path) : files.hasDirectory p = true ↔
    ∃ q, files.contains q = true ∧ q.same p = false ∧ q.isUnder p = true := by
  simp only [hasDirectory, contains, paths, List.any_map, List.any_eq_true, Function.comp_apply,
    Bool.and_eq_true, Bool.not_eq_true']
  constructor
  · rintro ⟨entry, hentry, hbelow⟩
    exact ⟨entry.1, ⟨entry, hentry, Path.same_iff.mpr rfl⟩, hbelow⟩
  · rintro ⟨q, ⟨entry, hentry, hsame⟩, hne, hunder⟩
    refine ⟨entry, hentry, ?_, ?_⟩
    · rw [Path.same_congr hsame, hne]
    · rw [Path.isUnder, Path.same_iff.mp hsame]
      exact hunder

end FileMap

namespace Store

/-- A directory is there as long as a file lies below it. -/
theorem isDirectory_iff (store : Store) (p : Path) : store.isDirectory p = true ↔
    ∃ q, store.isFile q = true ∧ q.same p = false ∧ q.isUnder p = true := by
  induction store with
  | memory files | disk files => exact files.hasDirectory_iff p
  | overlay buffers base ih =>
    simp only [isDirectory, isFile, Bool.or_eq_true, ih, buffers.hasDirectory_iff, or_and_right,
      exists_or]
    exact or_comm

theorem isDirectory_congr {store store' : Store} (h : ∀ p, store.isFile p = store'.isFile p)
    (p : Path) : store.isDirectory p = store'.isDirectory p := by
  rw [Bool.eq_iff_iff, isDirectory_iff, isDirectory_iff]
  simp only [h]

def ListsFiles (store : Store) : Prop :=
  ∀ directory p, (store.listedSpelling? directory p).isSome =
    (p.isSourceUnder directory && store.isFile p)

theorem listsFiles_memory (files : FileMap) : (memory files).ListsFiles := by
  intro directory p
  rw [isFile_eq_isSome_spelling?, listedSpelling?, spelling?]
  split <;> simp_all

theorem ListsFiles.overlay {base : Store} (h : base.ListsFiles) (buffers : FileMap) :
    (overlay buffers base).ListsFiles := by
  intro directory p
  rw [listedSpelling?, Option.isSome_or, h directory p, isFile_eq_isSome_spelling?,
    isFile_eq_isSome_spelling?, spelling?, Option.isSome_or]
  split <;> simp_all

end Store

namespace ImportRules

/-- The rules differ at most in their stores, and these have files at the same paths. -/
structure Alike (rules rules' : ImportRules) : Prop where
  root : rules.root = rules'.root
  dependencies : rules.dependencies = rules'.dependencies
  contracts : rules.contracts = rules'.contracts
  remappings : rules.remappings = rules'.remappings
  isFile : ∀ p, rules.store.isFile p = rules'.store.isFile p

theorem alike_forDocument (config : Config) (document : Path) {store store' : Store}
    (hisFile : ∀ p, store.isFile p = store'.isFile p)
    (hread : store.read ((config.rootFor document).normalize.join "remappings.txt") =
      store'.read ((config.rootFor document).normalize.join "remappings.txt")) :
    (forDocument config document store).Alike (forDocument config document store') := by
  refine ⟨rfl, rfl, rfl, ?_, hisFile⟩
  simp only [forDocument, fileRemappings, hisFile, hread]

namespace Alike

variable {rules rules' : ImportRules} (h : rules.Alike rules')

include h

/-- An import leads to the same file, whatever the files hold. -/
theorem resolve_eq (path : String) (importer : Path) :
    rules.resolve path importer = rules'.resolve path importer := by
  have hisDirectory := Store.isDirectory_congr h.isFile
  have hpackage : rules.packageFile? path = rules'.packageFile? path := by
    simp only [packageFile?, h.dependencies, h.contracts, h.isFile, hisDirectory]
  have hremapped : rules.remappedFile? path importer = rules'.remappedFile? path importer := by
    simp only [remappedFile?, h.remappings, h.root]
  have hrelative : rules.relativeFile path importer = rules'.relativeFile path importer := by
    rw [relativeFile, relativeFile, directoryOf, directoryOf, h.isFile, h.root]
  rw [resolve, resolve, hpackage, hremapped, hrelative]

theorem lower_eq (symbols : Symbols) (file : Nat) (path : Path) (text : String) :
    symbols.lower rules file path text = symbols.lower rules' file path text := by
  have hitem : Symbols.lowerItem rules file path = Symbols.lowerItem rules' file path := by
    funext state item
    cases item <;> simp only [Symbols.lowerItem, h.resolve_eq]
  rw [Symbols.lower, Symbols.lower, hitem]

theorem importFor_eq (file document : Path) :
    rules.importFor file document = rules'.importFor file document := by
  rw [importFor, importFor, directoryOf, directoryOf, h.dependencies, h.remappings, h.root]

end Alike

theorem offers_eq_map_sources (rules : ImportRules) (document : Path) :
    rules.offers document = (Store.dropRepeats (rules.store.sources rules.root)).map
      (Suggestion.ofFile rules document) := by
  unfold offers Store.sources
  cases rules.store.list rules.root with
  | ok files => rfl
  | error e => simp [Except.toOption, Store.dropRepeats]

/-- A file is offered in the same way under all of its spellings. -/
theorem ofFile_congr (rules : ImportRules) (document : Path) {p q : Path}
    (h : p.components = q.components) :
    Suggestion.ofFile rules document p = Suggestion.ofFile rules document q := by
  have hremainder : ∀ base : Path, p.remainder? base = q.remainder? base := by
    intro base
    rw [Path.remainder?, Path.remainder?, Path.isUnder, Path.isUnder, h]
  have hremapped : (fun r : Remapping => r.importFor? p rules.root) =
      fun r => r.importFor? q rules.root := by
    funext r
    rw [Remapping.importFor?, Remapping.importFor?, hremainder]
  have hrelative : ∀ base : Path, p.relativeTo base = q.relativeTo base := by
    intro base
    unfold Path.relativeTo Path.normalComponents
    rw [h]
  have himport : rules.importFor p document = rules.importFor q document := by
    unfold importFor
    rw [hremainder, hremapped, hrelative]
  rw [Suggestion.ofFile, Suggestion.ofFile, himport, Path.toSlash, Path.toSlash, h]

theorem Alike.offers_eq {rules rules' : ImportRules} (h : rules.Alike rules')
    (hlists : rules.store.ListsFiles) (hlists' : rules'.store.ListsFiles) (document : Path) :
    rules.offers document = rules'.offers document := by
  have hofFile : Suggestion.ofFile rules document = Suggestion.ofFile rules' document := by
    funext file
    simp only [Suggestion.ofFile, h.importFor_eq]
  have hlisted : (Store.dropRepeats (rules.store.sources rules.root)).map Path.components =
      (Store.dropRepeats (rules'.store.sources rules'.root)).map Path.components := by
    refine Path.map_components_eq_of_pairwise_before
      (Store.pairwise_before_dropRepeats (rules.store.pairwise_le_sources _))
      (Store.pairwise_before_dropRepeats (rules'.store.pairwise_le_sources _)) fun p => ?_
    rw [Store.find?_same_dropRepeats, Store.find?_same_dropRepeats, Store.find?_same_sources,
      Store.find?_same_sources, hlists, hlists', h.root, h.isFile]
  rw [offers_eq_map_sources, offers_eq_map_sources, hofFile]
  exact Path.map_eq_of_map_components_eq (fun _ _ => rules'.ofFile_congr document) hlisted

end ImportRules

namespace Frontier

variable {store store' : Store} {front : Frontier} {target : Path}

theorem visit_congr (hread : front.hasVisited target = false →
    store.read target = store'.read target) :
    front.visit store target = front.visit store' target := by
  unfold visit
  split
  next => rfl
  next hnew => rw [hread (by simpa using hnew)]

/-- What is found depends on what the store holds at the targets that were not visited only. -/
theorem foldl_visit_congr {targets : List Path} (hread : ∀ target ∈ targets,
    front.hasVisited target = false → store.read target = store'.read target) :
    targets.foldl (visit store) front = targets.foldl (visit store') front := by
  induction targets generalizing front with
  | nil => rfl
  | cons target targets ih =>
    obtain ⟨found, hv⟩ := exists_visits_visit store front target
    rw [List.foldl_cons, List.foldl_cons, ← visit_congr (hread target List.mem_cons_self)]
    refine ih fun t ht hnew => hread t (List.mem_cons_of_mem _ ht) ?_
    exact hv.hasVisited_eq_false hnew

end Frontier

namespace Builder

variable {rules rules' : ImportRules} {b next : Builder}

/-- A step is the same in two stores that hold the same at what the lowered file imports. -/
theorem step_congr (h : rules.Alike rules') (hread : ∀ e ∈ b.front.queue,
    ∀ target ∈ rules.targets e.1 e.2, b.front.hasVisited target = false →
      rules.store.read target = rules'.store.read target) :
    b.step rules = b.step rules' := by
  unfold step
  split
  next => rfl
  next path text queue hqueue =>
    dsimp only
    have htargets := hread (path, text) (by simp [hqueue])
    have hfront : (rules.targets path text).foldl (Frontier.visit rules.store)
        ⟨b.front.visited, queue⟩ = (rules.targets path text).foldl (Frontier.visit rules'.store)
          ⟨b.front.visited, queue⟩ := Frontier.foldl_visit_congr htargets
    rw [← h.lower_eq, Symbols.lower_snd, hfront]

/-- The walk goes the same way in two stores that hold the same at the imports of what it loads. -/
theorem run_congr (h : rules.Alike rules') (hread : ∀ file ∈ (b.run rules).files,
    ∀ target ∈ rules.targets file.path file.text, b.front.hasVisited target = false →
      rules.store.read target = rules'.store.read target) :
    b.run rules = b.run rules' := by
  have hstep := step_congr h fun e he target htarget => by
    obtain ⟨file, hfile, rfl⟩ := exists_file_of_mem_queue rules he
    exact hread file hfile target htarget
  fun_induction run rules b with
  | case1 b hnone => rw [run_of_step_eq_none (hstep ▸ hnone)]
  | case2 b next hnext _ ih =>
    have hrun : b.run rules' = next.run rules' := run_of_step_eq_some (hstep ▸ hnext)
    obtain ⟨path, text, queue, -, -, hfront⟩ := step_eq_some_iff.mp hnext
    obtain ⟨found, hv⟩ := Frontier.exists_visits rules.store (rules.targets path text)
      ⟨b.front.visited, queue⟩
    rw [← hfront] at hv
    have hrest : ∀ file ∈ (next.run rules).files, ∀ target ∈ rules.targets file.path file.text,
        next.front.hasVisited target = false →
          rules.store.read target = rules'.store.read target :=
      fun file hfile target htarget hnew =>
        hread file hfile target htarget (hv.hasVisited_eq_false hnew)
    refine (ih hrest (step_congr h fun e he target htarget => ?_)).trans hrun.symm
    obtain ⟨file, hfile, rfl⟩ := exists_file_of_mem_queue rules he
    exact hrest file hfile target htarget

end Builder

namespace Table

section load

variable {rules rules' : ImportRules}

/-- A table is determined by the files that there are and by what its imports hold. -/
theorem load_congr (h : rules.Alike rules') (document : Path) (text : String)
    (hread : ∀ file ∈ (load rules document text).files,
      ∀ target ∈ rules.targets file.path file.text, target.same document = false →
        rules.store.read target = rules'.store.read target) :
    load rules document text = load rules' document text := by
  rw [load, load, Table.mk.injEq]
  refine Builder.run_congr h fun file hfile target htarget hnew => ?_
  refine hread file hfile target htarget ?_
  simpa [Builder.start, Frontier.hasVisited, Path.same_comm] using hnew

/-- The target of an import of a loaded file is at the end of a chain of imports. -/
theorem exists_chain_of_mem_targets {document target : Path} {text : String} {file : SourceFile}
    (hfile : file ∈ (load rules document text).files)
    (htarget : target ∈ rules.targets file.path file.text) :
    ∃ n, rules.Chain document text n target := by
  obtain ⟨later, hlater, -, hfiles⟩ := exists_fromDocument rules document text
  have he : (file.path, file.text) ∈ (document, text) :: later :=
    hfiles ▸ List.mem_map_of_mem hfile
  obtain ⟨n, hn⟩ := hlater.exists_chain he
  exact ⟨n + 1, .step hn ((hlater.imports_iff he target).mpr htarget)⟩

/-- What a chain leads to is loaded if it can be read. -/
theorem exists_file_of_chain {document path : Path} {text content : String} {n : Nat}
    (hchain : rules.Chain document text n path) (hne : path.same document = false)
    (hread : rules.store.read path = .ok content) :
    ∃ file ∈ (load rules document text).files, file.path.components = path.components := by
  obtain ⟨later, hlater, -, hfiles⟩ := exists_fromDocument rules document text
  obtain ⟨e, he, heq⟩ := hlater.exists_mem_of_chain hchain
    ((ImportRules.textAt?_eq_some_of_ne (Path.same_eq_false_iff.mp hne)).mpr hread)
  obtain ⟨file, hfile, rfl⟩ := List.mem_map.mp (hfiles ▸ he)
  exact ⟨file, hfile, heq⟩

end load

end Table

/-- The two analyses have the same table and give the same answer to every request. -/
structure Analysis.SameAnswers (a b : Analysis) : Prop where
  table : a.table = b.table
  completions : ∀ p, a.completions p = b.completions p
  definitions : ∀ p, a.definitions p = b.definitions p
  documentSuggestions : a.documentSuggestions = b.documentSuggestions

theorem Analysis.sameAnswers_of_alike {rules rules' : ImportRules} (h : rules.Alike rules')
    (hlists : rules.store.ListsFiles) (hlists' : rules'.store.ListsFiles) (path : Path)
    {table table' : Table} (htable : table = table') :
    SameAnswers ⟨path, rules, table⟩ ⟨path, rules', table'⟩ := by
  subst htable
  refine ⟨rfl, fun p => ?_, fun p => rfl, rfl⟩
  unfold completions
  rw [h.offers_eq hlists hlists']
  rfl

theorem FileMap.get?_eq_none_iff (files : FileMap) (p : Path) :
    files.get? p = none ↔ files.contains p = false := by
  simp [get?, contains]

namespace Session

/-- Sessions whose stores hold the same files with the same texts answer alike. -/
theorem sameAnswers_of_read_eq {session session' : Session}
    (hconfig : session.config = session'.config)
    (hlists : session.store.ListsFiles) (hlists' : session'.store.ListsFiles)
    (hisFile : ∀ p, session.store.isFile p = session'.store.isFile p)
    (hread : ∀ p, session.store.read p = session'.store.read p) (document : Path)
    (text : String) :
    (session.analyze document text).SameAnswers (session'.analyze document text) := by
  have halike := ImportRules.alike_forDocument session.config document hisFile (hread _)
  have htable := Table.load_congr halike document text fun _ _ target _ _ => hread target
  unfold analyze
  rw [← hconfig]
  exact Analysis.sameAnswers_of_alike halike hlists hlists' document htable

/-- A session without buffers loads a document from its base. -/
theorem table_analyze_start (config : Config) (base : Store) (document : Path) (text : String) :
    ((start config base).analyze document text).table =
      Table.load (.forDocument config document base) document text := by
  have hisFile : ∀ p, (start config base).store.isFile p = base.isFile p := fun p => rfl
  have hread : ∀ p, (start config base).store.read p = base.read p := fun p => rfl
  have halike := ImportRules.alike_forDocument config document hisFile (hread _)
  exact Table.load_congr halike document text fun _ _ target _ _ => hread target

/-- Files outside of the import closure do not matter. Two stores have files at the same paths and
the same remappings in the root, and each file that a chain of imports in the first one leads to
has the same text in the second. Then the document has the same table over both, and every request
is answered in the same way. -/
theorem sameAnswers_of_agree_on_closure (config : Config) (document : Path) (text : String)
    (first second : FileMap) (hpaths : ∀ p, first.contains p = second.contains p)
    (hremappings : first.get? ((config.rootFor document).normalize.join "remappings.txt") =
      second.get? ((config.rootFor document).normalize.join "remappings.txt"))
    (hclosure : ∀ n path content,
      (ImportRules.forDocument config document (.memory first)).Chain document text n path →
      path.same document = false → first.get? path = some content →
      second.get? path = some content) :
    Table.load (.forDocument config document (.memory first)) document text =
        Table.load (.forDocument config document (.memory second)) document text ∧
      ((start config (.memory first)).analyze document text).SameAnswers
        ((start config (.memory second)).analyze document text) := by
  have hread : ∀ p, first.get? p = second.get? p →
      (Store.memory first).read p = (Store.memory second).read p := by
    intro p hp
    rw [Store.read, Store.read, hp]
  have halike : (ImportRules.forDocument config document (.memory first)).Alike
      (.forDocument config document (.memory second)) :=
    ImportRules.alike_forDocument config document hpaths (hread _ hremappings)
  have htable := Table.load_congr halike document text fun file hfile target htarget hne => by
    apply hread
    obtain ⟨n, hn⟩ := Table.exists_chain_of_mem_targets hfile htarget
    cases hfirst : first.get? target with
    | some content => exact (hclosure n target content hn hne hfirst).symm
    | none =>
      rw [first.get?_eq_none_iff, hpaths, ← second.get?_eq_none_iff] at hfirst
      exact hfirst.symm
  have hlists : ∀ files : FileMap, (start config (.memory files)).store.ListsFiles :=
    fun files => (Store.listsFiles_memory files).overlay _
  refine ⟨htable, Analysis.sameAnswers_of_alike ?_ (hlists first) (hlists second) document ?_⟩
  · exact ImportRules.alike_forDocument config document (fun p => hpaths p) (hread _ hremappings)
  · have hsessions := table_analyze_start config (.memory second) document text
    rw [← htable, ← table_analyze_start config (.memory first) document text] at hsessions
    exact hsessions.symm

def dock : String := "import \"./Ship.sol\"; contract Dock is Ship { }"

def dockFiles : FileMap :=
  ⟨[(⟨"/p/Ship.sol"⟩, "contract Ship { uint load; }"), (⟨"/p/Attic.sol"⟩, "contract Old { }")]⟩

def dockFilesLater : FileMap :=
  ⟨[(⟨"/p//Attic.sol"⟩, "import \"./Ship.sol\"; enum Old { New }"),
    (⟨"/p/Ship.sol"⟩, "contract Ship { uint load; }")]⟩

def dockConfig : Config := { root := ⟨"/p"⟩ }

theorem sameAnswers_of_dock :
    dockFiles.get? ⟨"/p/Attic.sol"⟩ ≠ dockFilesLater.get? ⟨"/p/Attic.sol"⟩ ∧
      Table.load (.forDocument dockConfig ⟨"/p/Dock.sol"⟩ (.memory dockFiles))
          ⟨"/p/Dock.sol"⟩ dock =
        Table.load (.forDocument dockConfig ⟨"/p/Dock.sol"⟩ (.memory dockFilesLater))
          ⟨"/p/Dock.sol"⟩ dock ∧
      ((start dockConfig (.memory dockFiles)).analyze ⟨"/p/Dock.sol"⟩ dock).SameAnswers
        ((start dockConfig (.memory dockFilesLater)).analyze ⟨"/p/Dock.sol"⟩ dock) := by
  refine ⟨by decide +kernel, sameAnswers_of_agree_on_closure dockConfig ⟨"/p/Dock.sol"⟩ dock
    dockFiles dockFilesLater ?_ (by decide +kernel) ?_⟩
  · intro p
    have hattic : (Path.mk "/p//Attic.sol").components = (Path.mk "/p/Attic.sol").components := by
      decide +kernel
    simp [dockFiles, dockFilesLater, FileMap.contains, Path.same, hattic, Bool.or_comm]
  · intro n path content hchain hne hget
    have hread : (Store.memory dockFiles).read path = .ok content := by
      rw [Store.read, hget]
    obtain ⟨file, hfile, hpath⟩ := Table.exists_file_of_chain hchain hne hread
    have hloaded : ∀ file ∈ (Table.load (.forDocument dockConfig ⟨"/p/Dock.sol"⟩
        (.memory dockFiles)) ⟨"/p/Dock.sol"⟩ dock).files,
        file.path = ⟨"/p/Dock.sol"⟩ ∨ file.path = ⟨"/p/Ship.sol"⟩ := by decide +kernel
    rcases hloaded file hfile with hdock | hship
    · rw [hdock] at hpath
      exact absurd hpath.symm (Path.same_eq_false_iff.mp hne)
    · rw [hship] at hpath
      have htext : dockFilesLater.get? ⟨"/p/Ship.sol"⟩ = dockFiles.get? ⟨"/p/Ship.sol"⟩ := by
        decide +kernel
      rw [← dockFilesLater.get?_congr hpath, htext, dockFiles.get?_congr hpath, hget]

end Session

end SolidityCompass
