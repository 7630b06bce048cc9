import Mathlib.Data.List.Sort
import SolidityCompass.Proofs.Paths
import SolidityCompass.Source.Store

/-!
# Listings of source files

Paths are ordered by their components, so the sorted paths of a store are determined by the files
that it holds. A store keeps one spelling for each of its files: `Store.spelling?` gives it, with
the spelling of the base before that of a buffer, and a listing holds exactly these spellings, since
sorting is stable and a repeated path is dropped behind its first spelling.
-/

namespace SolidityCompass

namespace Component

theorem lt_iff {a b : Component} : a.lt b = true ↔
    a.rank < b.rank ∨ ∃ x y, a = .name x ∧ b = .name y ∧ x < y := by
  cases a with
  | name x =>
    cases b with
    | name y =>
      have hlt : (name x).lt (name y) = true ↔ x < y := decide_eq_true_iff
      rw [hlt]
      refine ⟨fun h => Or.inr ⟨x, y, rfl, rfl, h⟩, ?_⟩
      rintro (h | ⟨x', y', hx, hy, h⟩)
      · exact absurd h (Nat.lt_irrefl _)
      · cases hx
        cases hy
        exact h
    | _ => simp [lt]
  | _ => cases b <;> simp [lt]

theorem lt_irrefl (a : Component) : a.lt a = false := by
  rw [Bool.eq_false_iff, ne_eq, lt_iff]
  rintro (h | ⟨x, y, rfl, hy, h⟩)
  · exact Nat.lt_irrefl _ h
  · cases hy
    exact String.lt_irrefl x h

theorem lt_trans {a b c : Component} (hab : a.lt b = true) (hbc : b.lt c = true) :
    a.lt c = true := by
  rw [lt_iff] at hab hbc ⊢
  rcases hab with hab | ⟨x, y, rfl, rfl, hxy⟩
  · rcases hbc with hbc | ⟨y, z, rfl, rfl, -⟩
    · exact Or.inl (Nat.lt_trans hab hbc)
    · exact Or.inl hab
  · rcases hbc with hbc | ⟨y', z, hy, rfl, hyz⟩
    · exact Or.inl hbc
    · cases hy
      exact Or.inr ⟨x, z, rfl, rfl, String.lt_trans hxy hyz⟩

theorem lt_or_lt {a b : Component} (h : a ≠ b) : a.lt b = true ∨ b.lt a = true := by
  simp only [lt_iff]
  rcases Nat.lt_trichotomy a.rank b.rank with hlt | heq | hgt
  · exact Or.inl (Or.inl hlt)
  · -- Only two names have one rank and differ.
    cases a with
    | name x =>
      cases b with
      | name y =>
        by_cases hxy : x < y
        · exact Or.inl (Or.inr ⟨x, y, rfl, rfl, hxy⟩)
        · by_cases hyx : y < x
          · exact Or.inr (Or.inr ⟨y, x, rfl, rfl, hyx⟩)
          · have heq' := String.le_antisymm (String.not_lt.mp hyx) (String.not_lt.mp hxy)
            exact absurd (congrArg name heq') h
      | _ => simp [rank] at heq
    | _ => cases b <;> simp_all [rank]
  · exact Or.inr (Or.inl hgt)

end Component

namespace Path

theorem componentsLe_total (as bs : List Component) :
    (componentsLe as bs || componentsLe bs as) = true := by
  induction as generalizing bs with
  | nil => simp [componentsLe]
  | cons a as ih =>
    cases bs with
    | nil => simp [componentsLe]
    | cons b bs =>
      by_cases hab : a = b
      · subst hab
        simpa [componentsLe] using ih bs
      · simpa [componentsLe, hab, Ne.symm hab] using Component.lt_or_lt hab

theorem componentsLe_trans {as bs cs : List Component} (hab : componentsLe as bs = true)
    (hbc : componentsLe bs cs = true) : componentsLe as cs = true := by
  induction as generalizing bs cs with
  | nil => rfl
  | cons a as ih =>
    cases bs with
    | nil => simp [componentsLe] at hab
    | cons b bs =>
      cases cs with
      | nil => simp [componentsLe] at hbc
      | cons c cs =>
        simp only [componentsLe] at hab hbc ⊢
        by_cases heq : a = b
        · subst heq
          rw [if_pos rfl] at hab
          split at hbc
          next hac => rw [if_pos hac]; exact ih hab hbc
          next hac => rw [if_neg hac]; exact hbc
        · rw [if_neg heq] at hab
          by_cases hbc' : b = c
          · subst hbc'
            rw [if_neg heq]
            exact hab
          · rw [if_neg hbc'] at hbc
            have hac := Component.lt_trans hab hbc
            have hne : a ≠ c := by
              rintro rfl
              simp [Component.lt_irrefl] at hac
            rw [if_neg hne]
            exact hac

theorem componentsLe_antisymm {as bs : List Component} (hab : componentsLe as bs = true)
    (hba : componentsLe bs as = true) : as = bs := by
  induction as generalizing bs with
  | nil =>
    cases bs with
    | nil => rfl
    | cons b bs => simp [componentsLe] at hba
  | cons a as ih =>
    cases bs with
    | nil => simp [componentsLe] at hab
    | cons b bs =>
      simp only [componentsLe] at hab hba
      by_cases heq : a = b
      · subst heq
        rw [if_pos rfl] at hab hba
        rw [ih hab hba]
      · rw [if_neg heq] at hab
        rw [if_neg (Ne.symm heq)] at hba
        have hcycle := Component.lt_trans hab hba
        simp [Component.lt_irrefl] at hcycle

theorem le_trans (p q r : Path) (hpq : p.le q = true) (hqr : q.le r = true) : p.le r = true :=
  componentsLe_trans hpq hqr

theorem le_total (p q : Path) : (p.le q || q.le p) = true :=
  componentsLe_total p.components q.components

def Precedes (as bs : List Component) : Prop :=
  componentsLe as bs = true ∧ as ≠ bs

theorem Precedes.not_precedes {as bs : List Component} (h : Precedes as bs) : ¬ Precedes bs as :=
  fun h' => h.2 (componentsLe_antisymm h.1 h'.1)

instance : Std.Irrefl Precedes := ⟨fun _ h => h.2 rfl⟩

instance : Std.Antisymm Precedes := ⟨fun _ _ h h' => absurd h' h.not_precedes⟩

def Before (p q : Path) : Prop :=
  p.le q = true ∧ p.same q = false

theorem before_iff {p q : Path} : p.Before q ↔ Precedes p.components q.components := by
  rw [Before, same_eq_false_iff]
  rfl

instance : Std.Irrefl Before := ⟨fun _ h => irrefl _ (before_iff.mp h)⟩

instance : Std.Antisymm Before :=
  ⟨fun _ _ h h' => absurd (before_iff.mp h') (before_iff.mp h).not_precedes⟩

theorem pairwise_mergeSort (paths : List Path) :
    (paths.mergeSort le).Pairwise (fun p q => p.le q = true) :=
  List.pairwise_mergeSort le_trans le_total paths

/-- Sorting keeps the order of the spellings of one path. -/
theorem filter_same_mergeSort (paths : List Path) (p : Path) :
    (paths.mergeSort le).filter (·.same p) = paths.filter (·.same p) := by
  have hle : (paths.filter (·.same p)).Pairwise (fun q r => q.le r = true) := by
    refine List.pairwise_of_forall_mem_list ?_
    intro q hq r hr
    have hq' := same_iff.mp (List.mem_filter.mp hq).2
    have hr' := same_iff.mp (List.mem_filter.mp hr).2
    have htotal := componentsLe_total p.components p.components
    rw [le, hq', hr']
    simpa using htotal
  have hsub := (List.sublist_mergeSort le_trans le_total hle List.filter_sublist).filter (·.same p)
  simp only [List.filter_filter, Bool.and_self] at hsub
  have hperm := (List.mergeSort_perm paths le).filter (·.same p)
  exact (hsub.eq_of_length hperm.length_eq.symm).symm

theorem find?_same_mergeSort (paths : List Path) (p : Path) :
    (paths.mergeSort le).find? (·.same p) = paths.find? (·.same p) := by
  rw [← List.head?_filter, filter_same_mergeSort, List.head?_filter]

theorem mem_iff_find?_same {paths : List Path} (h : paths.Pairwise (fun p q => p.same q = false))
    (p : Path) : p ∈ paths ↔ paths.find? (·.same p) = some p := by
  constructor
  · intro hp
    obtain ⟨front, back, rfl⟩ := List.append_of_mem hp
    rw [List.find?_eq_some_iff_append]
    refine ⟨same_iff.mpr rfl, front, back, rfl, fun q hq => ?_⟩
    simp [(List.pairwise_append.mp h).2.2 q hq p List.mem_cons_self]
  · exact List.mem_of_find?_eq_some

/-- Two listings with the same spelling of every path are one. -/
theorem eq_of_pairwise_before {paths paths' : List Path} (h : paths.Pairwise Before)
    (h' : paths'.Pairwise Before)
    (hfind : ∀ p, paths.find? (·.same p) = paths'.find? (·.same p)) : paths = paths' := by
  refine h.eq_of_mem_iff h' fun p => ?_
  rw [mem_iff_find?_same (h.imp And.right), mem_iff_find?_same (h'.imp And.right), hfind]

theorem map_eq_of_map_components_eq {α : Type} {f : Path → α}
    (hf : ∀ p q : Path, p.components = q.components → f p = f q) {paths paths' : List Path}
    (h : paths.map components = paths'.map components) : paths.map f = paths'.map f := by
  induction paths generalizing paths' with
  | nil =>
    cases paths' with
    | nil => rfl
    | cons q paths' => simp at h
  | cons p paths ih =>
    cases paths' with
    | nil => simp at h
    | cons q paths' =>
      obtain ⟨hpq, hrest⟩ := List.cons.inj h
      rw [List.map_cons, List.map_cons, hf p q hpq, ih hrest]

/-- Two listings of the same paths name them in the same order. -/
theorem map_components_eq_of_pairwise_before {paths paths' : List Path}
    (h : paths.Pairwise Before) (h' : paths'.Pairwise Before)
    (hfind : ∀ p, (paths.find? (·.same p)).isSome = (paths'.find? (·.same p)).isSome) :
    paths.map components = paths'.map components := by
  have hmap : ∀ l : List Path, l.Pairwise Before → (l.map components).Pairwise Precedes := by
    intro l hl
    rw [List.pairwise_map]
    exact hl.imp before_iff.mp
  have hmem : ∀ (l : List Path) (c : List Component),
      c ∈ l.map components ↔ ∃ p : Path, p.components = c ∧ (l.find? (·.same p)).isSome = true := by
    intro l c
    simp only [List.mem_map, List.find?_isSome, same_iff]
    constructor
    · rintro ⟨p, hp, rfl⟩
      exact ⟨p, rfl, p, hp, rfl⟩
    · rintro ⟨p, rfl, q, hq, hqp⟩
      exact ⟨q, hq, hqp⟩
  refine (hmap paths h).eq_of_mem_iff (hmap paths' h') fun c => ?_
  simp only [hmem, hfind]

end Path

def Path.isSourceUnder (p directory : Path) : Bool :=
  p.isUnder directory && p.extension? = some "sol"

theorem Path.isSourceUnder_congr {p q : Path} (h : p.same q = true) (directory : Path) :
    p.isSourceUnder directory = q.isSourceUnder directory := by
  unfold isSourceUnder isUnder extension?
  rw [same_iff.mp h]

theorem FileMap.find?_sourcesUnder (files : FileMap) (directory p : Path) :
    (files.sourcesUnder directory).find? (·.same p) =
      if p.isSourceUnder directory then files.paths.find? (·.same p) else none := by
  have hboth : ∀ q : Path, decide (q.isSourceUnder directory = true ∧ q.same p = true) =
      (p.isSourceUnder directory && q.same p) := by
    intro q
    by_cases hq : q.same p = true
    · simp [hq, Path.isSourceUnder_congr hq]
    · simp [hq]
  change (files.paths.filter fun q => q.isSourceUnder directory).find? (·.same p) = _
  simp only [List.find?_filter, hboth]
  cases p.isSourceUnder directory with
  | true => simp
  | false => simp

namespace Store

theorem find?_same_dropRepeats (paths : List Path) (p : Path) :
    (dropRepeats paths).find? (·.same p) = paths.find? (·.same p) := by
  fun_induction dropRepeats paths with
  | case1 q r rest hsame ih =>
    rw [ih]
    simp only [List.find?_cons, Path.same_congr hsame]
    split <;> rfl
  | case2 q r rest hsame ih =>
    rw [List.find?_cons, List.find?_cons, ih]
  | case3 => rfl

theorem dropRepeats_sublist (paths : List Path) : (dropRepeats paths).Sublist paths := by
  fun_induction dropRepeats paths with
  | case1 q r rest hsame ih => exact ih.trans ((List.sublist_cons_self r rest).cons_cons q)
  | case2 q r rest hsame ih => exact ih.cons_cons q
  | case3 => exact List.Sublist.refl _

/-- Of sorted paths those without repetition are left. -/
theorem pairwise_before_dropRepeats {paths : List Path}
    (h : paths.Pairwise (fun p q => p.le q = true)) : (dropRepeats paths).Pairwise Path.Before := by
  fun_induction dropRepeats paths with
  | case1 q r rest hsame ih => exact ih (h.sublist ((List.sublist_cons_self r rest).cons_cons q))
  | case2 q r rest hsame ih =>
    obtain ⟨hq, hrest⟩ := List.pairwise_cons.mp h
    refine List.pairwise_cons.mpr ⟨fun p hp => ?_, ih hrest⟩
    have hp := (dropRepeats_sublist (r :: rest)).mem hp
    refine ⟨hq p hp, ?_⟩
    rw [Path.same_eq_false_iff]
    intro hqp
    -- What lies between two spellings of one path is that path.
    have hrp : r.le q = true := by
      rcases List.mem_cons.mp hp with rfl | hp
      · simpa [Path.le, hqp] using Path.le_total p p
      · simpa [Path.le, hqp] using (List.pairwise_cons.mp hrest).1 p hp
    exact hsame (Path.same_iff.mpr (Path.componentsLe_antisymm (hq r List.mem_cons_self) hrp))
  | case3 paths hshort =>
    match paths, hshort with
    | [], _ => exact List.Pairwise.nil
    | [p], _ => exact List.pairwise_singleton _ p
    | p :: q :: rest, hshort => exact absurd rfl (hshort p q rest)

/-- The spelling under which a path is held. A file keeps its spelling when a buffer hides it. -/
def spelling? : Store → Path → Option Path
  | memory files, p | disk files, p => files.paths.find? (·.same p)
  | overlay buffers base, p => (base.spelling? p).or (buffers.paths.find? (·.same p))

theorem isFile_eq_isSome_spelling? (store : Store) (p : Path) :
    store.isFile p = (store.spelling? p).isSome := by
  have hcontains : ∀ files : FileMap,
      files.contains p = (files.paths.find? (·.same p)).isSome := by
    intro files
    rw [Bool.eq_iff_iff, List.find?_isSome]
    simp [FileMap.contains, FileMap.paths]
  induction store with
  | memory files | disk files => exact hcontains files
  | overlay buffers base ih =>
    rw [isFile, spelling?, Option.isSome_or, hcontains, ih, Bool.or_comm]

/-- The spelling under which a path is listed, if it is that of a source under the directory. On a
disk there may be no such directory. -/
def listedSpelling? : Store → Path → Path → Option Path
  | memory files, directory, p =>
    if p.isSourceUnder directory then files.paths.find? (·.same p) else none
  | disk files, directory, p =>
    if files.hasDirectory directory && p.isSourceUnder directory then
      files.paths.find? (·.same p)
    else none
  | overlay buffers base, directory, p =>
    (base.listedSpelling? directory p).or
      (if p.isSourceUnder directory then buffers.paths.find? (·.same p) else none)

def sources (store : Store) (directory : Path) : List Path :=
  (store.list directory).toOption.getD []

theorem find?_same_sources (store : Store) (directory p : Path) :
    (store.sources directory).find? (·.same p) = store.listedSpelling? directory p := by
  have hsorted : ∀ files : FileMap,
      ((files.sourcesUnder directory).mergeSort Path.le).find? (·.same p) =
        if p.isSourceUnder directory then files.paths.find? (·.same p) else none := fun files =>
    (Path.find?_same_mergeSort _ p).trans (files.find?_sourcesUnder directory p)
  induction store with
  | memory files => exact hsorted files
  | disk files =>
    by_cases hdirectory : files.hasDirectory directory
    · simpa [sources, list, listedSpelling?, hdirectory, Except.toOption] using hsorted files
    · simp [sources, list, listedSpelling?, hdirectory, Except.toOption]
  | overlay buffers base ih =>
    have hlist : (overlay buffers base).sources directory = dropRepeats
        ((base.sources directory ++ buffers.sourcesUnder directory).mergeSort Path.le) := rfl
    rw [hlist, find?_same_dropRepeats, Path.find?_same_mergeSort, List.find?_append, ih,
      FileMap.find?_sourcesUnder, listedSpelling?]

theorem pairwise_le_sources (store : Store) (directory : Path) :
    (store.sources directory).Pairwise (fun p q => p.le q = true) := by
  cases store with
  | memory files => exact Path.pairwise_mergeSort _
  | disk files =>
    unfold sources list
    split
    · exact Path.pairwise_mergeSort _
    · exact List.Pairwise.nil
  | overlay buffers base =>
    exact (pairwise_before_dropRepeats (Path.pairwise_mergeSort _)).imp And.left

end Store

end SolidityCompass
