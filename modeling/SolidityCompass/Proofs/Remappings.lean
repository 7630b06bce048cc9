import SolidityCompass.Import.Remapping
import SolidityCompass.Proofs.JoinedPaths

/-!
# Remappings written and read

`importFor?` puts the stem of a remapping in front of what a path has behind the target directory,
and `resolve?` puts the target itself there. The two meet if the slashes at the end of stem and
target go together: then the text behind the stem stands for the same components behind the target
as behind the directory. One kind of path is lost. A directory without components, which a target
such as `./` makes of an empty root, has every path under it, the absolute ones included, and a root
that is written behind a target is no more than a slash.
-/

namespace SolidityCompass

namespace Path

theorem isPart_of_components_cons {p : Path} {c : Component} {rest : List Component}
    (h : p.components = c :: rest) : ∀ d ∈ rest, d.IsPart := by
  have htrail : rest ⊆ trail p.text := by
    by_cases habs : p.isAbsolute = true
    · rw [components_of_isAbsolute habs] at h
      exact (List.cons.inj h).2 ▸ List.Subset.refl _
    · rcases components_of_relative (Bool.eq_false_iff.mpr habs) with hp | hp
      · rw [← hp, h]
        exact List.subset_cons_self c rest
      · rw [hp] at h
        exact (List.cons.inj h).2 ▸ List.Subset.refl _
  exact fun d hd => isPart_of_mem_trail (htrail hd)

variable {file base : Path} {rest : List Component}

/-- What a path has behind a directory can be written behind the directory, unless it begins with
a root. -/
theorem normalOf_append_trail_slashed (h : file.components = base.components ++ rest)
    (hrest : base.components ≠ [] ∨ file.isAbsolute = false) :
    normalOf (base.components ++ trail (slashed rest)) = normalOf file.components := by
  cases hbase : base.components with
  | cons c front =>
    rw [hbase, List.cons_append] at h
    have hparts : ∀ d ∈ rest, d.IsPart := fun d hd =>
      isPart_of_components_cons h d (List.mem_append_right _ hd)
    rw [trail_slashed hparts, h, List.cons_append]
  | nil =>
    have hrel := hrest.resolve_left (not_not_intro hbase)
    have hparts : ∀ c ∈ trail file.text, c.IsPart := fun c hc => isPart_of_mem_trail hc
    obtain rfl : file.components = rest := by rwa [hbase] at h
    rcases components_of_relative hrel with htrail | htrail
    · rw [htrail, trail_slashed hparts, List.nil_append]
    · -- A `.` in front is not written, and normalising drops it as well.
      have hdrop : slashed (.current :: trail file.text) = slashed (trail file.text) := rfl
      rw [htrail, hdrop, trail_slashed hparts]
      rfl

/-- A root behind a directory without components is not read as one. -/
theorem normalOf_trail_slashed_ne (h : file.components = base.components ++ rest)
    (hbase : base.components = []) (habs : file.isAbsolute = true) :
    normalOf (base.components ++ trail (slashed rest)) ≠ normalOf file.components := by
  obtain rfl : file.components = rest := by rwa [hbase] at h
  obtain ⟨names, hfile, -⟩ := isPlain_normalize habs
  rw [components_normalize_eq] at hfile
  have hroot : .root ∉ base.components ++ trail (slashed file.components) := by
    rw [hbase]
    exact root_not_mem_trail _
  intro heq
  apply root_not_mem_normalOf hroot
  rw [heq, hfile]
  exact List.mem_cons_self

end Path

namespace Remapping

def gap (r : Remapping) : String :=
  if r.stem.toList.getLast? = some '/' then "" else "/"

theorem gap_cases (r : Remapping) : r.gap = "" ∨ r.gap = "/" := by
  unfold gap
  split <;> simp

variable {r : Remapping} {root file : Path} {rest : List Component}

theorem importFor?_eq_some (h : file.components = (r.directory root).components ++ rest) :
    r.importFor? file root = some (r.stem ++ r.gap ++ Path.slashed rest) := by
  rw [importFor?, Path.remainder?_eq_some.mpr h, Option.map_some, gap]
  split <;> simp

theorem exists_of_importFor? {path : String} (h : r.importFor? file root = some path) :
    ∃ rest, file.components = (r.directory root).components ++ rest ∧
      path = r.stem ++ (r.gap ++ Path.slashed rest) := by
  obtain ⟨rest, hrest, -⟩ := Option.map_eq_some_iff.mp h
  have hfile := Path.remainder?_eq_some.mp hrest
  rw [importFor?_eq_some hfile, Option.some.injEq, String.append_assoc] at h
  exact ⟨rest, hfile, h.symm⟩

theorem resolve?_append (r : Remapping) (rest : String) (root : Path) :
    r.resolve? (r.stem ++ rest) root = some (root.join (r.target ++ rest)).normalize := by
  unfold resolve?
  rw [if_pos (by simp)]
  simp

section meets

/-- Between the target and what is written behind the stem there is a slash. -/
def Meets (r : Remapping) : Prop :=
  r.gap = "/" ∨ r.target.toList.getLast? = some '/'

theorem Meets.trail_append (h : r.Meets) (text : String) :
    Path.trail (r.target ++ (r.gap ++ text)) = Path.trail r.target ++ Path.trail text := by
  rcases r.gap_cases with hgap | hgap
  · have hslash := h.resolve_left (by simp [hgap])
    rw [hgap, String.empty_append, Path.trail_append_of_slash hslash]
  · rw [hgap, ← String.append_assoc, Path.trail_append_slash]

/-- The target with a text behind it leads where the text leads from the directory. -/
theorem Meets.components_normalize_join (h : r.Meets) (htarget : r.target ≠ "") (root : Path)
    (text : String) :
    (root.join (r.target ++ (r.gap ++ text))).normalize.components =
      Path.normalOf ((r.directory root).components ++ Path.trail text) := by
  have hdirectory := Path.components_normalize_join root r.target
  rw [← directory] at hdirectory
  rw [Path.components_normalize_join, Path.isAbsolute_append htarget, h.trail_append,
    ← List.append_assoc]
  apply Path.normalOf_append_congr
  rw [← hdirectory, directory, Path.normalOf_components_normalize, Path.components_normalize_eq]

/-- The file that is found behind the target is the one that was written, unless it is an absolute
path and the directory has no components. -/
theorem Meets.normalize_join_eq_iff (h : r.Meets) (htarget : r.target ≠ "")
    (hfile : file.components = (r.directory root).components ++ rest) :
    (root.join (r.target ++ (r.gap ++ Path.slashed rest))).normalize = file.normalize ↔
      (r.directory root).components ≠ [] ∨ file.isAbsolute = false := by
  rw [Path.normalize_eq_iff, h.components_normalize_join htarget, Path.components_normalize_eq]
  constructor
  · intro heq
    by_cases hempty : (r.directory root).components = []
    · refine Or.inr (Bool.eq_false_iff.mpr fun habs => ?_)
      exact Path.normalOf_trail_slashed_ne hfile hempty habs heq
    · exact Or.inl hempty
  · exact Path.normalOf_append_trail_slashed hfile

end meets

/-- An import that a remapping has written is taken by it, and leads to the file for which it was
written exactly if the target directory has components or the file has no root. -/
theorem resolve?_of_importFor? (r : Remapping) (root file : Path) (path : String)
    (htarget : r.target ≠ "")
    (hslash : r.stem.toList.getLast? ≠ some '/' ∨ r.target.toList.getLast? = some '/')
    (h : r.importFor? file root = some path) :
    ∃ found, r.resolve? path root = some found ∧
      (found = file.normalize ↔
        (r.directory root).components ≠ [] ∨ file.isAbsolute = false) := by
  obtain ⟨rest, hfile, rfl⟩ := exists_of_importFor? h
  have hmeets : r.Meets := hslash.imp_left fun hstem => if_neg hstem
  exact ⟨_, r.resolve?_append _ root, hmeets.normalize_join_eq_iff htarget hfile⟩

/-- A target above the root, and a file that is not in normal form. -/
theorem resolve?_of_importFor?_of_shared :
    let r : Remapping := ⟨none, "@oz", "../shared/./oz"⟩
    r.importFor? ⟨"/w/shared//oz/token/../X.sol"⟩ ⟨"/w/app"⟩ = some "@oz/token/../X.sol" ∧
      r.resolve? "@oz/token/../X.sol" ⟨"/w/app"⟩ = some ⟨"/w/shared/oz/X.sol"⟩ := by
  intro r
  have hwritten : r.importFor? ⟨"/w/shared//oz/token/../X.sol"⟩ ⟨"/w/app"⟩ =
      some "@oz/token/../X.sol" := by decide
  obtain ⟨found, hfound, hiff⟩ :=
    resolve?_of_importFor? r _ _ _ (by decide) (Or.inl (by decide)) hwritten
  have hnormal : (Path.mk "/w/shared//oz/token/../X.sol").normalize = ⟨"/w/shared/oz/X.sol"⟩ := by
    decide
  rw [hiff.mpr (Or.inl (by decide)), hnormal] at hfound
  exact ⟨hwritten, hfound⟩

/-- Under an empty root the target `./` has every path under it, and the import of an absolute one
leads to a relative one. -/
theorem resolve?_importFor?_of_emptyRoot :
    let r : Remapping := ⟨none, "@/", "./"⟩
    r.target ≠ "" ∧ r.target.toList.getLast? = some '/' ∧
      r.importFor? ⟨"/a/b.sol"⟩ ⟨""⟩ = some "@//a/b.sol" ∧
      r.resolve? "@//a/b.sol" ⟨""⟩ = some ⟨"a/b.sol"⟩ ∧
      (Path.mk "/a/b.sol").normalize = ⟨"/a/b.sol"⟩ ∧
      (Path.mk "a/b.sol").same ⟨"/a/b.sol"⟩ = false := by
  decide

end Remapping

end SolidityCompass
