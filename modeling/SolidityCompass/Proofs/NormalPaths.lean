import SolidityCompass.Import.Resolver
import SolidityCompass.Proofs.RelativePaths

/-!
# Normal paths

The components of a normal path are names, behind the root or behind a number of `..`, and its
text has nothing but single slashes between them. Normalising gives such a path and changes no
other one, so the normal paths are those that normalising leaves as they are. Whatever rule
resolves an import, it leads to a normal path.
-/

namespace SolidityCompass

namespace Path

/-- Names behind the root, or behind a number of `..`. -/
def NormalForm (components : List Component) : Prop :=
  ∃ names, (∀ c ∈ names, c.IsName) ∧
    (components = .root :: names ∨ ∃ n, components = List.replicate n .parent ++ names)

structure IsNormal (p : Path) : Prop where
  normalForm : NormalForm p.components
  written : ofComponents p.components = p

/-- Behind a number of `..` a further one adds to them if there is no name to take away. -/
theorem normalStep_relative {names : List Component} (h : ∀ c ∈ names, c.IsName) (n : Nat)
    {c : Component} (hc : c.IsPart) :
    ∃ names' m, normalStep (names ++ List.replicate n .parent) c =
      names' ++ List.replicate m .parent ∧ ∀ d ∈ names', d.IsName := by
  cases c with
  | name text =>
    have hname : (Component.name text).IsName := ⟨hc, by simp⟩
    exact ⟨.name text :: names, n, rfl, List.forall_mem_cons.mpr ⟨hname, h⟩⟩
  | parent =>
    cases names with
    | nil =>
      refine ⟨[], n + 1, ?_, by simp⟩
      cases n <;> rfl
    | cons d names =>
      obtain ⟨text, rfl⟩ := (h d List.mem_cons_self).exists_text
      exact ⟨names, n, rfl, fun e he => h e (List.mem_cons_of_mem _ he)⟩
  | root => exact hc.elim
  | current => exact hc.elim

theorem foldl_normalStep_relative {names parts : List Component} (h : ∀ c ∈ names, c.IsName)
    (n : Nat) (hparts : ∀ c ∈ parts, c.IsPart) :
    ∃ names' m, parts.foldl normalStep (names ++ List.replicate n .parent) =
      names' ++ List.replicate m .parent ∧ ∀ c ∈ names', c.IsName := by
  induction parts generalizing names n with
  | nil => exact ⟨names, n, rfl, h⟩
  | cons c parts ih =>
    obtain ⟨names', m, hstep, hnames⟩ := normalStep_relative h n (hparts c List.mem_cons_self)
    rw [List.foldl_cons, hstep]
    exact ih hnames m fun d hd => hparts d (List.mem_cons_of_mem _ hd)

theorem normalForm_normalOf_parts {parts : List Component} (h : ∀ c ∈ parts, c.IsPart) :
    NormalForm (normalOf parts) := by
  obtain ⟨names, n, hfold, hnames⟩ :=
    foldl_normalStep_relative (List.forall_mem_nil Component.IsName) 0 h
  refine ⟨names.reverse, fun c hc => hnames c (List.mem_reverse.mp hc), Or.inr ⟨n, ?_⟩⟩
  rw [normalOf, show ([] : List Component) = [] ++ List.replicate 0 .parent from rfl, hfold]
  simp

theorem normalForm_normalComponents (p : Path) : NormalForm p.normalComponents := by
  have htrail : ∀ c ∈ trail p.text, c.IsPart := fun c hc => isPart_of_mem_trail hc
  cases habs : p.isAbsolute with
  | true =>
    obtain ⟨names, hp, hnames⟩ := isPlain_normalize habs
    exact ⟨names, hnames, Or.inl (p.components_normalize.symm.trans hp)⟩
  | false =>
    rw [normalComponents_eq]
    -- A `.` in front of a relative path is the one component that leaves no trace.
    rcases components_of_relative habs with htext | htext
    · rw [htext]
      exact normalForm_normalOf_parts htrail
    · have hdrop : normalOf (.current :: trail p.text) = normalOf (trail p.text) := rfl
      rw [htext, hdrop]
      exact normalForm_normalOf_parts htrail

theorem isNormal_normalize (p : Path) : p.normalize.IsNormal where
  normalForm := p.components_normalize ▸ p.normalForm_normalComponents
  written := by rw [components_normalize, normalize]

theorem foldl_normalStep_replicate (m n : Nat) :
    (List.replicate n Component.parent).foldl normalStep (List.replicate m .parent) =
      List.replicate (m + n) .parent := by
  induction n generalizing m with
  | zero => rfl
  | succ n ih =>
    have hstep : normalStep (List.replicate m .parent) .parent =
        List.replicate (m + 1) .parent := by
      cases m <;> rfl
    rw [List.replicate_succ, List.foldl_cons, hstep, ih, Nat.add_right_comm, Nat.add_assoc]

theorem NormalForm.normalOf_eq {components : List Component} (h : NormalForm components) :
    normalOf components = components := by
  obtain ⟨names, hnames, rfl | ⟨n, rfl⟩⟩ := h
  · exact normalOf_append_names [.root] hnames
  · have hups : normalOf (List.replicate n .parent) = List.replicate n .parent := by
      have hfold := foldl_normalStep_replicate 0 n
      rw [Nat.zero_add, List.replicate_zero] at hfold
      rw [normalOf, hfold, List.reverse_replicate]
    rw [normalOf_append_names _ hnames, hups]

theorem IsNormal.normalize_eq {p : Path} (h : p.IsNormal) : p.normalize = p := by
  rw [normalize, normalComponents_eq, h.normalForm.normalOf_eq, h.written]

theorem isNormal_iff {p : Path} : p.IsNormal ↔ p.normalize = p :=
  ⟨IsNormal.normalize_eq, fun h => h ▸ p.isNormal_normalize⟩

instance (p : Path) : Decidable p.IsNormal :=
  decidable_of_iff (p.normalize = p) isNormal_iff.symm

example : (Path.mk "../../lib/Safe.sol").IsNormal ∧ ¬ (Path.mk "/src/../Safe.sol").IsNormal := by
  decide

end Path

namespace ImportRules

variable {rules : ImportRules} {path : String} {importer file : Path}

theorem isNormal_of_packageFile? (h : rules.packageFile? path = some file) : file.IsNormal := by
  unfold packageFile? at h
  split at h
  next => cases h
  next =>
    split at h
    next => cases h
    next package rest _ =>
      dsimp only at h
      split at h
      next =>
        split at h
        next =>
          cases h
          exact Path.isNormal_normalize _
        next =>
          cases h
          exact Path.isNormal_normalize _
      next => cases h

theorem isNormal_of_remappedFile? (h : rules.remappedFile? path importer = some file) :
    file.IsNormal := by
  obtain ⟨r, -, hr⟩ := List.exists_of_findSome?_eq_some h
  unfold Remapping.resolve? at hr
  split at hr
  next =>
    cases hr
    exact Path.isNormal_normalize _
  next => cases hr

theorem isNormal_relativeFile (rules : ImportRules) (path : String) (importer : Path) :
    (rules.relativeFile path importer).IsNormal := by
  unfold relativeFile
  dsimp only
  split
  · exact Path.isNormal_normalize _
  · exact Path.isNormal_normalize _

/-- Every import leads to a normal path, whichever rule applies. -/
theorem isNormal_resolve (rules : ImportRules) (path : String) (importer : Path) :
    (rules.resolve path importer).IsNormal := by
  unfold resolve
  cases hpackage : rules.packageFile? path with
  | some file => exact isNormal_of_packageFile? hpackage
  | none =>
    cases hremapped : rules.remappedFile? path importer with
    | some file => exact isNormal_of_remappedFile? hremapped
    | none => exact isNormal_relativeFile rules path importer

end ImportRules

end SolidityCompass
