import SolidityCompass.Import.Resolver
import SolidityCompass.Proofs.Listing
import SolidityCompass.Proofs.Remappings
import SolidityCompass.Symbol.Loading

/-!
# Which imports lead back to their files

`importFor` writes the import of a file by the rule under which the file falls, and `resolve` takes
an import by the first rule that applies to its text. `ImportRules.Returns` says, rule by rule,
when the two meet: the source directory of the package must not hold a second file of that name,
no other rule may take what a remapping or a relative path was written for, the slashes at the
end of a remapping's stem and target must go together, and a file that lies in the dependency
directory without being in a package must be found some other way.
-/

namespace SolidityCompass

theorem findSome?_eq_find?_bind {α β : Type} {f : α → Option β} {p : α → Bool} (xs : List α)
    (h : ∀ x, (f x).isSome = p x) : xs.findSome? f = (xs.find? p).bind f := by
  induction xs with
  | nil => rfl
  | cons x xs ih =>
    have hx := h x
    cases hf : f x with
    | none => simp_all
    | some y => simp_all

namespace Store

theorem isFile_of_mem_paths {store : Store} {p q : Path} (h : p ∈ store.paths)
    (hsame : p.components = q.components) : store.isFile q = true := by
  have hcontains : ∀ files : FileMap, p ∈ files.paths → files.contains q = true := by
    intro files hp
    obtain ⟨entry, hentry, rfl⟩ := List.mem_map.mp hp
    exact List.any_eq_true.mpr ⟨entry, hentry, Path.same_iff.mpr hsame⟩
  induction store with
  | memory files | disk files => exact hcontains files h
  | overlay buffers base ih =>
    rcases List.mem_append.mp h with hp | hp
    · simp [isFile, hcontains buffers hp]
    · simp [isFile, ih hp]

theorem isDirectory_of_mem_paths {store : Store} {p directory : Path} {rest : List Component}
    (h : p ∈ store.paths) (hp : p.components = directory.components ++ rest) (hrest : rest ≠ []) :
    store.isDirectory directory = true := by
  have hhas : ∀ files : FileMap, p ∈ files.paths → files.hasDirectory directory = true := by
    intro files hmem
    refine List.any_eq_true.mpr ⟨p, hmem, ?_⟩
    have hne : p.same directory = false := by
      rw [Path.same_eq_false_iff, hp]
      simpa using hrest
    simp [hne, Path.isUnder, hp]
  induction store with
  | memory files | disk files => exact hhas files h
  | overlay buffers base ih =>
    rcases List.mem_append.mp h with hmem | hmem
    · simp [isDirectory, hhas buffers hmem]
    · simp [isDirectory, ih hmem]

/-- A listed file is a file of the store under the directory. -/
theorem mem_of_list {store : Store} {directory p : Path} {files : List Path}
    (h : store.list directory = .ok files) (hp : p ∈ files) :
    p ∈ store.paths ∧ p.isUnder directory = true := by
  have hsources : ∀ map : FileMap, p ∈ map.sourcesUnder directory →
      p ∈ map.paths ∧ p.isUnder directory = true := by
    intro map hmem
    obtain ⟨hpath, hunder⟩ := List.mem_filter.mp hmem
    exact ⟨hpath, (Bool.and_eq_true_iff.mp hunder).1⟩
  induction store generalizing files with
  | memory map =>
    cases h
    exact hsources map (List.mem_mergeSort.mp hp)
  | disk map =>
    unfold list at h
    split at h
    · cases h
      exact hsources map (List.mem_mergeSort.mp hp)
    · cases h
  | overlay buffers base ih =>
    cases h
    have hmem := List.mem_mergeSort.mp ((dropRepeats_sublist _).mem hp)
    rcases List.mem_append.mp hmem with hbase | hbuffer
    · cases hlist : base.list directory with
      | error e => simp [hlist, Except.toOption] at hbase
      | ok found =>
        obtain ⟨hpath, hunder⟩ := ih hlist (by simpa [hlist, Except.toOption] using hbase)
        exact ⟨List.mem_append_right _ hpath, hunder⟩
    · obtain ⟨hpath, hunder⟩ := hsources buffers hbuffer
      exact ⟨List.mem_append_left _ hpath, hunder⟩

end Store

namespace Remapping

/-- The import that is written for a file under the directory of the remapping leads to the file,
if the remapping takes it: where the stem ends with a slash, so does the target, and the target
is neither the empty path nor, save for some roots, the empty text. -/
def LeadsBack (r : Remapping) (root file : Path) : Prop :=
  if r.target = "" then r.gap = "" ∨ root.components = [] ∨ root.components = [.root]
  else
    (r.directory root).components ≠ [] ∧
      (r.gap = "/" ∨ r.target.toList.getLast? = some '/' ∨ file.same (r.directory root) = true)

section leadsBack

variable {r : Remapping} {root file : Path} {rest : List Component}

theorem same_iff_leadsBack_of_empty (hfile : file.IsPlain)
    (hroot : root.components = [] ∨ root.IsPlain) (htarget : r.target = "")
    (hrest : file.components = (r.directory root).components ++ rest) :
    (root.join (r.target ++ (r.gap ++ Path.slashed rest))).normalize.same file = true ↔
      r.LeadsBack root file := by
  have hnormal := Path.normalOf_components_of_cases hroot
  have hdirectory : (r.directory root).components = root.components := by
    rw [directory, htarget, Path.components_normalize_join, if_neg (by decide),
      show Path.trail "" = [] from rfl, List.append_nil, hnormal]
  rw [hdirectory] at hrest
  rw [htarget, String.empty_append, Path.same_iff, Path.components_normalize_join, LeadsBack,
    if_pos htarget, hrest]
  have hgap := r.gap_cases
  rcases hfile.append_cases hrest with ⟨hempty, names, rfl, hnames⟩ | ⟨⟨names, hstart, -⟩, hnames⟩
  · -- The root is empty, and what is written behind the stem is the whole path of the file.
    have hparts : ∀ c ∈ names, c.IsPart := fun c hc => (hnames c hc).1
    have habs : (Path.mk (r.gap ++ Path.slashed (.root :: names))).isAbsolute = true := by
      rcases hgap with hgap | hgap <;> simp [hgap, Path.slashed_root hparts, Path.isAbsolute]
    have htrail : Path.trail (r.gap ++ Path.slashed (.root :: names)) = names := by
      rcases hgap with hgap | hgap <;>
        simp only [hgap, Path.slashed_root hparts, String.empty_append, Path.trail_slash,
          Path.trail_slashed hparts]
    rw [if_pos habs, htrail, Path.normalOf_append_names _ hnames, hempty]
    simp [Path.normalOf, Path.normalStep]
  · have hparts : ∀ c ∈ rest, c.IsPart := fun c hc => (hnames c hc).1
    rcases hgap with hgap | hgap
    · rw [hgap, String.empty_append, if_neg (by simp [Path.isAbsolute_slashed hparts]),
        Path.trail_slashed hparts, Path.normalOf_append_names _ hnames, hnormal]
      simp
    · rw [hgap, if_pos (Path.isAbsolute_slash _), Path.trail_slash, Path.trail_slashed hparts,
        Path.normalOf_append_names _ hnames, hstart, List.append_cancel_right_eq]
      simp [Path.normalOf, Path.normalStep]

/-- Without a slash between the target and the rest, the last name of the target and the first of
the rest become one. -/
theorem same_iff_leadsBack_of_not_meets (hfile : file.IsPlain)
    (hroot : root.components = [] ∨ root.IsPlain) (htarget : r.target ≠ "") (hmeets : ¬r.Meets)
    (hrest : file.components = (r.directory root).components ++ rest) :
    (root.join (r.target ++ (r.gap ++ Path.slashed rest))).normalize.same file = true ↔
      r.LeadsBack root file := by
  obtain ⟨hgapNe, hslash⟩ := not_or.mp hmeets
  have hgap : r.gap = "" := r.gap_cases.resolve_right hgapNe
  have hdirectory := Path.components_normalize_join root r.target
  rw [← directory] at hdirectory
  rw [Path.same_iff, Path.components_normalize_join, Path.isAbsolute_append htarget, LeadsBack,
    if_neg htarget]
  rcases hfile.append_cases hrest with ⟨hempty, names, rfl, hnames⟩ | ⟨⟨names, hstart, -⟩, hnames⟩
  · -- An empty directory: the target is relative, and so is everything put behind it.
    have hjoin : (root.join r.target).isAbsolute = false := by
      rw [Bool.eq_false_iff]
      intro habs
      obtain ⟨names', hplain, -⟩ := Path.isPlain_normalize habs
      rw [← directory, hempty] at hplain
      cases hplain
    have hrootEmpty : root.components = [] := by
      rcases hroot with hroot | hroot
      · exact hroot
      · rw [Path.isAbsolute_join hroot.isAbsolute] at hjoin
        cases hjoin
    have hrel : (Path.mk r.target).isAbsolute = false := by
      rw [Bool.eq_false_iff]
      intro habs
      rw [Path.join_of_isAbsolute root habs, habs] at hjoin
      cases hjoin
    refine iff_of_false ?_ (by simp [hempty])
    rw [hrel, hrootEmpty, hrest, hempty]
    intro heq
    apply Path.root_not_mem_normalOf (Path.root_not_mem_trail _)
    simp only [Bool.false_eq_true, if_false, List.nil_append] at heq
    rw [heq]
    exact List.mem_cons_self
  · have hne : (r.directory root).components ≠ [] := by simp [hstart]
    rw [hgap, String.empty_append]
    cases rest with
    | nil =>
      rw [List.append_nil] at hrest
      refine iff_of_true ?_ ⟨hne, Or.inr (Or.inr (Path.same_iff.mpr hrest))⟩
      rw [show Path.slashed [] = "" from rfl, String.append_empty, ← hdirectory, hrest]
    | cons c rest =>
      obtain ⟨before, d, htrail, hd, hdc⟩ :=
        Path.trail_append_of_no_slash htarget hslash hnames
      have hback : ∀ e ∈ d :: rest, e.IsName := List.forall_mem_cons.mpr
        ⟨hd, fun e he => hnames e (List.mem_cons_of_mem _ he)⟩
      rw [htrail, ← List.append_assoc, Path.normalOf_append_names _ hback, hrest]
      refine iff_of_false ?_ ?_
      · intro heq
        exact hdc (List.cons.inj (List.append_inj' heq rfl).2).1
      · simp [hslash, Path.same_eq_false_iff, hrest]

theorem same_iff_leadsBack_of_ne (hfile : file.IsPlain)
    (hroot : root.components = [] ∨ root.IsPlain) (htarget : r.target ≠ "")
    (hrest : file.components = (r.directory root).components ++ rest) :
    (root.join (r.target ++ (r.gap ++ Path.slashed rest))).normalize.same file = true ↔
      r.LeadsBack root file := by
  by_cases hmeets : r.Meets
  · have hnormal := hfile.normalOf_components
    rw [Path.same_iff, ← hnormal, ← Path.components_normalize_eq file, ← Path.normalize_eq_iff,
      hmeets.normalize_join_eq_iff htarget hrest, LeadsBack, if_neg htarget]
    simp only [hfile.isAbsolute, Bool.true_eq_false, or_false, iff_self_and]
    exact fun _ => hmeets.imp_right Or.inl
  · exact same_iff_leadsBack_of_not_meets hfile hroot htarget hmeets hrest

theorem same_iff_leadsBack (hfile : file.IsPlain) (hroot : root.components = [] ∨ root.IsPlain)
    (hrest : file.components = (r.directory root).components ++ rest) :
    (root.join (r.target ++ (r.gap ++ Path.slashed rest))).normalize.same file = true ↔
      r.LeadsBack root file := by
  by_cases htarget : r.target = ""
  · exact same_iff_leadsBack_of_empty hfile hroot htarget hrest
  · exact same_iff_leadsBack_of_ne hfile hroot htarget hrest

end leadsBack

end Remapping

namespace ImportRules

section returns

variable (rules : ImportRules) (file document : Path)

def applicable : List Remapping :=
  rules.remappings.filter fun r => r.appliesTo document rules.root

def writer? : Option Remapping :=
  if file.isUnder rules.dependencies then none
  else (rules.applicable document).find? fun r => file.isUnder (r.directory rules.root)

def reader? (path : String) : Option Remapping :=
  (rules.applicable document).find? fun r => r.stem.toList.isPrefixOf path.toList

def Unread (path : String) : Prop :=
  rules.packageFile? path = none ∧ rules.reader? document path = none

/-- The file lies in the directory of a dependency package that an import can name. -/
def InPackage (package : String) (rest : List Component) : Prop :=
  file.components = rules.dependencies.components ++ .name package :: rest ∧ rest ≠ [] ∧
    package.toList.head? ≠ some '.'

/-- The file lies in the dependency directory, but in no package that an import can name. -/
def Stray : Prop :=
  file.isUnder rules.dependencies = true ∧ ∀ package rest, ¬rules.InPackage file package rest

def preferred (package : String) (rest : List Component) : Path :=
  (((rules.dependencies.join package).join rules.contracts).join (Path.slashed rest)).normalize

inductive Returns : Prop
  /-- The sources of the package hold no other file under that path. -/
  | package {package : String} {rest : List Component} (hin : rules.InPackage file package rest)
    (hpreferred : rules.contracts = "" ∨
      rules.store.isFile (rules.preferred package rest) = false ∨
      (rules.preferred package rest).same file = true)
  /-- No package and no other remapping takes what the remapping has written. -/
  | remapping {r : Remapping} (hwriter : rules.writer? file document = some r)
    (hpackage : rules.packageFile? (rules.importFor file document) = none)
    (hreader : rules.reader? document (rules.importFor file document) = some r)
    (hback : r.LeadsBack rules.root file)
  /-- A rule that has not written the import takes it and leads to the file all the same. -/
  | captured {p : Path} (hin : ∀ package rest, ¬rules.InPackage file package rest)
    (htaken : rules.packageFile? (rules.importFor file document) = some p ∨
      rules.packageFile? (rules.importFor file document) = none ∧
        rules.reader? document (rules.importFor file document) ≠ rules.writer? file document ∧
        rules.remappedFile? (rules.importFor file document) document = some p)
    (hsame : p.same file = true)
  /-- No rule takes the relative path that leads from the document to the file. -/
  | relative (hunder : file.isUnder rules.dependencies = false)
    (hunread : rules.Unread document (rules.importFor file document))
    (habsolute : (rules.directoryOf document).isAbsolute = true)
  /-- The document lies in the dependency directory, beside the stray file. -/
  | beside (hstray : rules.Stray file)
    (hunread : rules.Unread document (rules.importFor file document))
    (hdirectory : (rules.directoryOf document).same rules.dependencies = true)
  /-- The dependency directory is the root, and no file beside the document hides the stray. -/
  | fromRoot (hstray : rules.Stray file)
    (hunread : rules.Unread document (rules.importFor file document))
    (hhidden : rules.store.isFile
      ((rules.directoryOf document).join (rules.importFor file document)).normalize = false)
    (hroot : rules.root.same rules.dependencies = true)

/-- The file is held by the store and lies under the root; all paths are absolute and in normal
form, but the root may be empty. -/
structure Lists : Prop where
  mem_paths : file ∈ rules.store.paths
  isPlain : file.IsPlain
  root_cases : rules.root.components = [] ∨ rules.root.IsPlain
  directory_cases :
    (rules.directoryOf document).components = [] ∨ (rules.directoryOf document).IsPlain

end returns

variable {rules : ImportRules} {file document : Path}

section rules

theorem remappedFile?_eq (path : String) :
    rules.remappedFile? path document =
      (rules.reader? document path).bind fun r => r.resolve? path rules.root := by
  refine findSome?_eq_find?_bind _ fun r => ?_
  unfold Remapping.resolve?
  cases r.stem.toList.isPrefixOf path.toList <;> rfl

theorem importFor_of_under {rest : List Component}
    (h : file.components = rules.dependencies.components ++ rest) :
    rules.importFor file document = Path.slashed rest := by
  rw [importFor, Path.remainder?_eq_some.mpr h]

theorem importFor_of_not_under (h : file.isUnder rules.dependencies = false) :
    rules.importFor file document =
      match (rules.writer? file document).bind fun r => r.importFor? file rules.root with
      | some path => path
      | none =>
        let relative := (file.relativeTo (rules.directoryOf document)).toSlash
        if ['.', '.', '/'].isPrefixOf relative.toList then relative else "./" ++ relative := by
  have hwriter : (rules.applicable document).findSome? (fun r => r.importFor? file rules.root) =
      (rules.writer? file document).bind fun r => r.importFor? file rules.root := by
    rw [writer?, if_neg (by simp [h])]
    refine findSome?_eq_find?_bind _ fun r => ?_
    unfold Remapping.importFor? Path.remainder?
    cases file.isUnder (r.directory rules.root) <;> rfl
  rw [← hwriter, importFor, Path.remainder?, if_neg (by simp [h])]
  rfl

theorem packageFile?_of_inPackage (hlists : rules.Lists file document) {package : String}
    {rest : List Component} (hin : rules.InPackage file package rest) :
    ∃ p, rules.packageFile? (rules.importFor file document) = some p ∧
      (p.same file = true ↔ rules.contracts = "" ∨
        rules.store.isFile (rules.preferred package rest) = false ∨
        (rules.preferred package rest).same file = true) := by
  obtain ⟨hfile, hne, hdot⟩ := hin
  rcases hlists.isPlain.append_cases hfile with ⟨-, _, hroot, -⟩ | ⟨⟨_, hdependencies, -⟩, hnames⟩
  · cases hroot
  have hparts : ∀ c ∈ Component.name package :: rest, c.IsPart := fun c hc => (hnames c hc).1
  have hrest : ∀ c ∈ rest, c.IsPart := fun c hc => hparts c (List.mem_cons_of_mem _ hc)
  have hpackage : ∀ c ∈ [Component.name package], c.IsPart :=
    List.forall_mem_singleton.mpr (hparts _ List.mem_cons_self)
  -- The directory of the package is the dependency directory with one more name.
  have hslashed : Path.slashed [.name package] = package := by
    rw [Path.slashed_parts hpackage]
    simp
  have hdirectory : (rules.dependencies.join package).components =
      rules.dependencies.components ++ [.name package] := by
    have htext : rules.dependencies.text ≠ "" := by
      intro hempty
      have habs := (Path.isAbsolute_iff_components _).mpr ⟨_, hdependencies⟩
      simp [Path.isAbsolute, hempty] at habs
    have hrel := Path.isAbsolute_slashed hpackage
    have htrail := Path.trail_slashed hpackage
    rw [hslashed] at hrel htrail
    rw [Path.components_join htext hrel, htrail]
  have hfile' : file.components = (rules.dependencies.join package).components ++ rest := by
    rw [hdirectory, hfile]
    simp
  have hplain : ((rules.dependencies.join package).join (Path.slashed rest)).normalize.same file =
      true := by
    rw [Path.same_iff, Path.components_normalize_join,
      if_neg (by simp [Path.isAbsolute_slashed hrest]), Path.trail_slashed hrest, ← hfile',
      hlists.isPlain.normalOf_components]
  have htext : (rules.importFor file document).toList =
      package.toList ++ '/' :: (Path.slashed rest).toList := by
    rw [importFor_of_under hfile, Path.slashed_cons hne hparts]
    simp
  have hhead : (rules.importFor file document).toList.head? ≠ some '.' := by
    obtain ⟨c, cs, hcs⟩ :=
      List.exists_cons_of_ne_nil (hparts _ List.mem_cons_self).text_ne.1
    rw [Component.text_name] at hcs
    rw [htext]
    rw [hcs] at hdot ⊢
    exact hdot
  have hcut := cutAt?_append (hparts _ List.mem_cons_self).slash_not_mem (Path.slashed rest).toList
  rw [Component.text_name, ← htext] at hcut
  have hisDirectory := Store.isDirectory_of_mem_paths hlists.mem_paths hfile' hne
  unfold packageFile?
  simp only [hhead, if_false, hcut, String.ofList_toList, hisDirectory, if_true]
  rw [← preferred]
  by_cases hpreferred : (rules.contracts != "" &&
      rules.store.isFile (rules.preferred package rest)) = true
  · refine ⟨_, if_pos hpreferred, ?_⟩
    simp_all
  · refine ⟨_, if_neg hpreferred, iff_of_true hplain ?_⟩
    by_cases hcontracts : rules.contracts = ""
    · exact Or.inl hcontracts
    · exact Or.inr (Or.inl (by simpa [hcontracts] using hpreferred))

theorem importFor_of_writer? {r : Remapping} (h : rules.writer? file document = some r) :
    ∃ rest, file.components = (r.directory rules.root).components ++ rest ∧
      rules.importFor file document = r.stem ++ (r.gap ++ Path.slashed rest) := by
  have hwriter := h
  unfold writer? at h
  split at h
  next => cases h
  next hunder =>
    have hin := List.find?_some h
    obtain ⟨rest, hrest⟩ := List.isPrefixOf_iff_prefix.mp hin
    refine ⟨rest, hrest.symm, ?_⟩
    rw [importFor_of_not_under (Bool.eq_false_iff.mpr hunder), hwriter, Option.bind_some,
      Remapping.importFor?_eq_some hrest.symm, String.append_assoc]

theorem reader?_ne_none_of_writer? {r : Remapping} (h : rules.writer? file document = some r) :
    rules.reader? document (rules.importFor file document) ≠ none := by
  obtain ⟨rest, -, htext⟩ := importFor_of_writer? h
  unfold writer? at h
  split at h
  next => cases h
  next =>
    rw [htext, ne_eq, reader?, List.find?_eq_none]
    exact fun hnone => hnone r (List.mem_of_find?_eq_some h) (by simp)

/-- What a remapping has written and takes leads back if the remapping says so. -/
theorem remappedFile?_of_writer? (hlists : rules.Lists file document) {r : Remapping}
    (hwriter : rules.writer? file document = some r)
    (hreader : rules.reader? document (rules.importFor file document) = some r) :
    ∃ p, rules.remappedFile? (rules.importFor file document) document = some p ∧
      (p.same file = true ↔ r.LeadsBack rules.root file) := by
  obtain ⟨rest, hrest, htext⟩ := importFor_of_writer? hwriter
  rw [remappedFile?_eq, hreader, Option.bind_some, htext]
  exact ⟨_, r.resolve?_append _ _,
    Remapping.same_iff_leadsBack hlists.isPlain hlists.root_cases hrest⟩

theorem exists_remappedFile?_of_reader? {r : Remapping} {path : String}
    (h : rules.reader? document path = some r) :
    ∃ p, rules.remappedFile? path document = some p := by
  have hstem := List.find?_some h
  rw [remappedFile?_eq, h, Option.bind_some, Remapping.resolve?, if_pos hstem]
  exact ⟨_, rfl⟩

theorem relativeFile_of_dots {path : String} (h : ['.', '/'].isPrefixOf path.toList = true ∨
    ['.', '.', '/'].isPrefixOf path.toList = true) :
    rules.relativeFile path document = ((rules.directoryOf document).join path).normalize := by
  unfold relativeFile
  dsimp only
  rw [if_pos]
  rcases h with h | h <;> simp [h]

/-- The import of a file that falls under no rule starts with dots and has the parts of the path
that leads from the document to the file. -/
theorem importFor_of_writer?_eq_none (hunder : file.isUnder rules.dependencies = false)
    (hwriter : rules.writer? file document = none) :
    (['.', '/'].isPrefixOf (rules.importFor file document).toList = true ∨
      ['.', '.', '/'].isPrefixOf (rules.importFor file document).toList = true) ∧
    (Path.mk (rules.importFor file document)).isAbsolute = false ∧
    Path.trail (rules.importFor file document) =
      Path.trail (file.relativeTo (rules.directoryOf document)).toSlash := by
  rw [importFor_of_not_under hunder, hwriter]
  dsimp only [Option.bind_none]
  split
  next hdots =>
    refine ⟨Or.inr hdots, ?_, rfl⟩
    obtain ⟨more, hmore⟩ := List.isPrefixOf_iff_prefix.mp hdots
    simp [Path.isAbsolute, ← hmore]
  next => exact ⟨Or.inl (by simp), by simp [Path.isAbsolute], Path.trail_dot_slash _⟩

/-- A relative path leads back if there is a directory that it can start from. -/
theorem relativeFile_of_not_under (hlists : rules.Lists file document)
    (hunder : file.isUnder rules.dependencies = false)
    (hwriter : rules.writer? file document = none) :
    (rules.relativeFile (rules.importFor file document) document).same file = true ↔
      (rules.directoryOf document).isAbsolute = true := by
  obtain ⟨hdots, hrel, htrail⟩ := importFor_of_writer?_eq_none hunder hwriter
  rw [relativeFile_of_dots hdots, Path.same_iff, Path.components_normalize_join,
    if_neg (by simp [hrel]), htrail]
  rcases hlists.directory_cases with hempty | hplain
  · refine iff_of_false ?_ ?_
    · obtain ⟨names, hfile, -⟩ := hlists.isPlain
      rw [hempty, List.nil_append, hfile]
      intro heq
      apply Path.root_not_mem_normalOf (Path.root_not_mem_trail _)
      rw [heq]
      exact List.mem_cons_self
    · rw [Path.isAbsolute_iff_components, hempty]
      simp
  · have hconnected : (rules.directoryOf document).Connected file :=
      Or.inl ⟨hplain.isAbsolute, hlists.isPlain.isAbsolute⟩
    obtain ⟨parts, hrelative, hparts, -, hlead⟩ := hconnected.exists_parts
    refine iff_of_true ?_ hplain.isAbsolute
    rw [hrelative, Path.toSlash, Path.components_ofComponents ⟨parts, Or.inl rfl, hparts⟩,
      Path.trail_slashed hparts]
    rw [Path.components_normalize_eq, Path.components_normalize_eq, hplain.normalOf_components,
      hlists.isPlain.normalOf_components] at hlead
    exact hlead

/-- A dependency directory without components takes every absolute path for the import of a
package without a name. -/
theorem packageFile?_ne_none (hlists : rules.Lists file document)
    (hempty : rules.dependencies.components = []) :
    rules.packageFile? (rules.importFor file document) ≠ none := by
  obtain ⟨names, hfile, hnames⟩ := hlists.isPlain
  have hparts : ∀ c ∈ names, c.IsPart := fun c hc => (hnames c hc).1
  have hrest : file.components = rules.dependencies.components ++ .root :: names := by
    rw [hempty, hfile]
    rfl
  have htext : (rules.importFor file document).toList =
      [] ++ '/' :: (Path.slashed names).toList := by
    rw [importFor_of_under hrest, Path.slashed_root hparts]
    simp
  have hslash : '/' ∉ ([] : List Char) := List.not_mem_nil
  have hcut := cutAt?_append hslash (Path.slashed names).toList
  rw [← htext] at hcut
  have hjoin : (rules.dependencies.join "").components = rules.dependencies.components := by
    by_cases hbase : rules.dependencies.text = ""
    · rw [Path.join, if_pos (by simp [hbase]), hempty]
      rfl
    · rw [Path.components_join hbase rfl]
      exact List.append_nil _
  have hdirectory : rules.store.isDirectory (rules.dependencies.join "") = true :=
    Store.isDirectory_of_mem_paths hlists.mem_paths (hjoin ▸ hrest) (List.cons_ne_nil _ _)
  unfold packageFile?
  rw [if_neg (by simp [htext]), hcut]
  dsimp only
  rw [String.ofList_nil, if_pos hdirectory]
  split <;> simp

/-- What is written for a stray file is looked for beside the document, then under the root. -/
theorem relativeFile_of_stray (hlists : rules.Lists file document) (hstray : rules.Stray file)
    (hne : rules.dependencies.components ≠ []) :
    (rules.relativeFile (rules.importFor file document) document).same file = true ↔
      (rules.directoryOf document).same rules.dependencies = true ∨
        rules.store.isFile
          ((rules.directoryOf document).join (rules.importFor file document)).normalize = false ∧
        rules.root.same rules.dependencies = true := by
  obtain ⟨rest, hrest⟩ := List.isPrefixOf_iff_prefix.mp hstray.1
  rcases hlists.isPlain.append_cases hrest.symm with ⟨hempty, -⟩ | ⟨-, hnames⟩
  · exact absurd hempty hne
  have hparts : ∀ c ∈ rest, c.IsPart := fun c hc => (hnames c hc).1
  have hjoin : ∀ base : Path, base.components = [] ∨ base.IsPlain →
      ((base.join (rules.importFor file document)).normalize.same file = true ↔
        base.same rules.dependencies = true) := by
    intro base hbase
    rw [importFor_of_under hrest.symm, Path.same_iff, Path.components_normalize_join,
      if_neg (by simp [Path.isAbsolute_slashed hparts]), Path.trail_slashed hparts,
      Path.normalOf_append_names _ hnames, Path.normalOf_components_of_cases hbase, ← hrest,
      List.append_cancel_right_eq, Path.same_iff]
  have hbeside := hjoin _ hlists.directory_cases
  have hroot := hjoin _ hlists.root_cases
  obtain ⟨hdot, hdots⟩ := Path.slashed_names_no_dots hnames
  rw [← importFor_of_under hrest.symm] at hdot hdots
  unfold relativeFile
  dsimp only
  rw [hdot, hdots, Bool.false_or, Bool.false_or]
  cases hfile : rules.store.isFile
      ((rules.directoryOf document).join (rules.importFor file document)).normalize with
  | true => simpa using hbeside
  | false =>
    have hother : ¬(rules.directoryOf document).same rules.dependencies = true := by
      intro hsame
      have hpath := Path.same_iff.mp (hbeside.mpr hsame)
      rw [Store.isFile_of_mem_paths hlists.mem_paths hpath.symm] at hfile
      cases hfile
    simpa [hother] using hroot

theorem resolve_of_packageFile? {path : String} {p : Path} (h : rules.packageFile? path = some p) :
    rules.resolve path document = p := by
  simp [resolve, h]

theorem resolve_of_remappedFile? {path : String} {p : Path} (h : rules.packageFile? path = none)
    (hp : rules.remappedFile? path document = some p) : rules.resolve path document = p := by
  simp [resolve, h, hp]

theorem resolve_of_unread {path : String} (h : rules.Unread document path) :
    rules.resolve path document = rules.relativeFile path document := by
  simp [resolve, h.1, remappedFile?_eq, h.2]

theorem Unread.writer?_eq_none (h : rules.Unread document (rules.importFor file document)) :
    rules.writer? file document = none := by
  cases hwriter : rules.writer? file document with
  | none => rfl
  | some r => exact absurd h.2 (reader?_ne_none_of_writer? hwriter)

/-- Where the rules lead is where `Returns` says. -/
theorem Returns.same (hlists : rules.Lists file document) (h : rules.Returns file document) :
    (rules.resolve (rules.importFor file document) document).same file = true := by
  cases h with
  | package hin hpreferred =>
    obtain ⟨p, hp, hiff⟩ := packageFile?_of_inPackage hlists hin
    rw [resolve_of_packageFile? hp]
    exact hiff.mpr hpreferred
  | remapping hwriter hpackage hreader hback =>
    obtain ⟨p, hp, hiff⟩ := remappedFile?_of_writer? hlists hwriter hreader
    rw [resolve_of_remappedFile? hpackage hp]
    exact hiff.mpr hback
  | captured hin htaken hsame =>
    rcases htaken with hp | ⟨hpackage, -, hp⟩
    · rwa [resolve_of_packageFile? hp]
    · rwa [resolve_of_remappedFile? hpackage hp]
  | relative hunder hunread habsolute =>
    rw [resolve_of_unread hunread]
    exact (relativeFile_of_not_under hlists hunder hunread.writer?_eq_none).mpr habsolute
  | beside hstray hunread hdirectory =>
    have hne := fun hempty => packageFile?_ne_none hlists hempty hunread.1
    rw [resolve_of_unread hunread]
    exact (relativeFile_of_stray hlists hstray hne).mpr (Or.inl hdirectory)
  | fromRoot hstray hunread hhidden hroot =>
    have hne := fun hempty => packageFile?_ne_none hlists hempty hunread.1
    rw [resolve_of_unread hunread]
    exact (relativeFile_of_stray hlists hstray hne).mpr (Or.inr ⟨hhidden, hroot⟩)

/-- The rules lead back in no other way than `Returns` says. -/
theorem returns_of_same (hlists : rules.Lists file document)
    (h : (rules.resolve (rules.importFor file document) document).same file = true) :
    rules.Returns file document := by
  by_cases hin : ∃ package rest, rules.InPackage file package rest
  · obtain ⟨package, rest, hin⟩ := hin
    obtain ⟨p, hp, hiff⟩ := packageFile?_of_inPackage hlists hin
    rw [resolve_of_packageFile? hp] at h
    exact .package hin (hiff.mp h)
  have hout : ∀ package rest, ¬rules.InPackage file package rest :=
    fun package rest hin' => hin ⟨package, rest, hin'⟩
  cases hpackage : rules.packageFile? (rules.importFor file document) with
  | some p =>
    rw [resolve_of_packageFile? hpackage] at h
    exact .captured hout (Or.inl hpackage) h
  | none =>
    cases hreader : rules.reader? document (rules.importFor file document) with
    | some r =>
      by_cases hwriter : rules.writer? file document = some r
      · obtain ⟨p, hp, hiff⟩ := remappedFile?_of_writer? hlists hwriter hreader
        rw [resolve_of_remappedFile? hpackage hp] at h
        exact .remapping hwriter hpackage hreader (hiff.mp h)
      · obtain ⟨p, hp⟩ := exists_remappedFile?_of_reader? hreader
        rw [resolve_of_remappedFile? hpackage hp] at h
        exact .captured hout (Or.inr ⟨hpackage, by rwa [hreader, ne_comm], hp⟩) h
    | none =>
      have hunread : rules.Unread document (rules.importFor file document) := ⟨hpackage, hreader⟩
      rw [resolve_of_unread hunread] at h
      cases hunder : file.isUnder rules.dependencies with
      | false =>
        exact .relative hunder hunread
          ((relativeFile_of_not_under hlists hunder hunread.writer?_eq_none).mp h)
      | true =>
        have hstray : rules.Stray file := ⟨hunder, hout⟩
        have hne := fun hempty => packageFile?_ne_none hlists hempty hpackage
        rcases (relativeFile_of_stray hlists hstray hne).mp h with hsame | ⟨hhidden, hroot⟩
        · exact .beside hstray hunread hsame
        · exact .fromRoot hstray hunread hhidden hroot

end rules

/-- A path that is absolute and equal to its normal form is plain. -/
theorem isPlain_of_normalize {p : Path} (habs : p.isAbsolute = true) (hp : p.normalize = p) :
    p.IsPlain :=
  hp ▸ Path.isPlain_normalize habs

theorem lists_forDocument {config : Config} {store : Store} {files : List Path}
    (hstore : ∀ p ∈ store.paths, p.isAbsolute = true ∧ p.normalize = p)
    (hdocument : document.isAbsolute = true ∧ document.normalize = document)
    (hlist : store.list (forDocument config document store).root = .ok files)
    (hfile : file ∈ files) : (forDocument config document store).Lists file document := by
  obtain ⟨hmem, hunder⟩ := Store.mem_of_list hlist hfile
  obtain ⟨habs, hnormal⟩ := hstore file hmem
  have hplain := isPlain_of_normalize habs hnormal
  have hroot : (forDocument config document store).root.components = [] ∨
      (forDocument config document store).root.IsPlain := by
    obtain ⟨rest, hrest⟩ := List.isPrefixOf_iff_prefix.mp hunder
    rcases hplain.append_cases hrest.symm with ⟨hempty, -⟩ | ⟨hroot, -⟩
    · exact Or.inl hempty
    · exact Or.inr hroot
  refine ⟨hmem, hplain, hroot, ?_⟩
  unfold directoryOf
  rcases document.parent?_cases with ⟨hnone, -⟩ | ⟨d, c, hparent, hd, -⟩
  · rw [hnone]
    exact hroot
  · rw [hparent]
    rcases (isPlain_of_normalize hdocument.1 hdocument.2).append_cases hd with ⟨hempty, -⟩ | ⟨h, -⟩
    · exact Or.inl hempty
    · exact Or.inr h

/-- The import that is written for a file listed under the root leads back to the file from the
document for which it is written if, and only if, the rules return it. -/
theorem resolve_importFor_same_iff (config : Config) (store : Store) (document file : Path)
    (files : List Path)
    (hstore : ∀ p ∈ store.paths, p.isAbsolute = true ∧ p.normalize = p)
    (hdocument : document.isAbsolute = true ∧ document.normalize = document)
    (hlist : store.list (forDocument config document store).root = .ok files)
    (hfile : file ∈ files) :
    ((forDocument config document store).resolve
        ((forDocument config document store).importFor file document) document).same file = true ↔
      (forDocument config document store).Returns file document := by
  have hlists := lists_forDocument hstore hdocument hlist hfile
  exact ⟨returns_of_same hlists, Returns.same hlists⟩

def vendoredFiles : Store :=
  .memory ⟨[(⟨"/p/src/D.sol"⟩, ""), (⟨"/p/lib/oz/src/T.sol"⟩, ""), (⟨"/p/vendor/oz/T.sol"⟩, "")]⟩

def vendoredConfig : Config :=
  { root := ⟨"/p"⟩, remappings := [⟨none, "@oz/", "vendor/oz/"⟩] }

def vendored : ImportRules :=
  forDocument vendoredConfig ⟨"/p/src/D.sol"⟩ vendoredFiles

theorem resolve_importFor_of_vendored :
    vendored.importFor ⟨"/p/vendor/oz/T.sol"⟩ ⟨"/p/src/D.sol"⟩ = "@oz/T.sol" ∧
      (vendored.resolve (vendored.importFor ⟨"/p/vendor/oz/T.sol"⟩ ⟨"/p/src/D.sol"⟩)
        ⟨"/p/src/D.sol"⟩).same ⟨"/p/vendor/oz/T.sol"⟩ = true := by
  refine ⟨by decide +kernel, (resolve_importFor_same_iff vendoredConfig vendoredFiles
    ⟨"/p/src/D.sol"⟩ ⟨"/p/vendor/oz/T.sol"⟩ _ ?_ ?_ rfl ?_).mpr ?_⟩
  · decide +kernel
  · decide +kernel
  · exact List.mem_mergeSort.mpr (by decide +kernel)
  · refine .remapping (r := ⟨none, "@oz/", "vendor/oz/"⟩) ?_ ?_ ?_ ?_
    · decide +kernel
    · decide +kernel
    · decide +kernel
    · unfold Remapping.LeadsBack
      decide +kernel

def twofoldFiles : Store :=
  .memory ⟨[(⟨"/p/lib/a/X.sol"⟩, ""), (⟨"/p/lib/a/src/X.sol"⟩, "")]⟩

def twofold : ImportRules :=
  forDocument { root := ⟨"/p"⟩ } ⟨"/p/D.sol"⟩ twofoldFiles

/-- The import of the file outside of that directory leads to the file inside. -/
theorem resolve_importFor_of_twofold :
    (∀ p ∈ twofoldFiles.paths, p.isAbsolute = true ∧ p.normalize = p) ∧
      (Path.mk "/p/D.sol").isAbsolute = true ∧ (Path.mk "/p/D.sol").normalize = ⟨"/p/D.sol"⟩ ∧
      (∃ files, twofoldFiles.list twofold.root = .ok files ∧ ⟨"/p/lib/a/X.sol"⟩ ∈ files) ∧
      twofold.importFor ⟨"/p/lib/a/X.sol"⟩ ⟨"/p/D.sol"⟩ = "a/X.sol" ∧
      twofold.resolve "a/X.sol" ⟨"/p/D.sol"⟩ = ⟨"/p/lib/a/src/X.sol"⟩ ∧
      (twofold.resolve "a/X.sol" ⟨"/p/D.sol"⟩).same ⟨"/p/lib/a/X.sol"⟩ = false := by
  refine ⟨?_, rfl, ?_, ⟨_, rfl, List.mem_mergeSort.mpr ?_⟩, ?_, ?_, ?_⟩
  all_goals decide +kernel

end ImportRules

end SolidityCompass
