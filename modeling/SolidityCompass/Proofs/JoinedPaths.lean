import SolidityCompass.Proofs.NormalPaths

/-!
# Joined paths

What normalising leaves of some components does to everything in front of them what the components
themselves do. So a path may be normalised part by part, before its parts are joined or after. The
path that `relativeTo` writes takes away what its base has for itself and adds what its target has
for itself: it leads from the base to the target, as long as nothing that it has to take away is a
`..` itself.
-/

namespace SolidityCompass

namespace Path

def ParentsFirst (components : List Component) : Prop :=
  ∃ n rest, components = List.replicate n .parent ++ rest ∧ .parent ∉ rest

theorem parentsFirst_of_not_mem {components : List Component} (h : .parent ∉ components) :
    ParentsFirst components :=
  ⟨0, components, rfl, h⟩

theorem ParentsFirst.replicate_append {components : List Component} (h : ParentsFirst components)
    (k : Nat) : ParentsFirst (List.replicate k .parent ++ components) := by
  obtain ⟨n, rest, rfl, hrest⟩ := h
  exact ⟨k + n, rest, by rw [← List.append_assoc, List.replicate_append_replicate], hrest⟩

theorem ParentsFirst.of_append {front back : List Component} (h : ParentsFirst (front ++ back)) :
    ParentsFirst back := by
  obtain ⟨n, rest, hsplit, hrest⟩ := h
  rcases List.append_eq_append_iff.mp hsplit with ⟨more, hparents, rfl⟩ | ⟨more, -, rfl⟩
  · obtain ⟨-, -, hmore⟩ := List.append_eq_replicate_iff.mp hparents.symm
    exact ⟨more.length, rest, by rw [← hmore], hrest⟩
  · exact parentsFirst_of_not_mem fun h => hrest (List.mem_append_right _ h)

section normal

theorem parent_not_mem_names {names : List Component} (h : ∀ c ∈ names, c.IsName) :
    .parent ∉ names :=
  fun hmem => (h _ hmem).2 rfl

theorem NormalForm.parentsFirst {components : List Component} (h : NormalForm components) :
    ParentsFirst components := by
  obtain ⟨names, hnames, rfl | ⟨n, rfl⟩⟩ := h
  · exact parentsFirst_of_not_mem (by simpa using parent_not_mem_names hnames)
  · exact ⟨n, names, rfl, parent_not_mem_names hnames⟩

theorem NormalForm.current_not_mem {components : List Component} (h : NormalForm components) :
    .current ∉ components := by
  obtain ⟨names, hnames, hform⟩ := h
  have hcurrent : .current ∉ names := fun hmem => (hnames _ hmem).1
  rcases hform with rfl | ⟨n, rfl⟩
  · simpa using hcurrent
  · simpa [List.mem_replicate] using hcurrent

theorem root_not_mem_of_relative {p : Path} (h : p.isAbsolute = false) :
    .root ∉ p.components := by
  rcases components_of_relative h with htrail | htrail
  · exact htrail ▸ root_not_mem_trail _
  · simpa [htrail] using root_not_mem_trail p.text

theorem isAbsolute_normalize (p : Path) : p.normalize.isAbsolute = p.isAbsolute := by
  cases h : p.isAbsolute with
  | true => exact (isPlain_normalize h).isAbsolute
  | false =>
    rw [Bool.eq_false_iff, ne_eq, isAbsolute_iff_components, components_normalize,
      normalComponents_eq]
    rintro ⟨rest, hrest⟩
    apply root_not_mem_normalOf (root_not_mem_of_relative h)
    rw [hrest]
    exact List.mem_cons_self

theorem normalize_eq_iff {p q : Path} :
    p.normalize = q.normalize ↔ p.normalize.components = q.normalize.components := by
  refine ⟨congrArg components, fun h => ?_⟩
  rw [components_normalize, components_normalize] at h
  rw [normalize, normalize, h]

end normal

section parts

/-- What one step makes of the components that were kept acts like them and the new one. The kept
ones hold no root, which would stop a `..`. -/
theorem foldl_reverse_normalStep {kept : List Component} (h : .root ∉ kept)
    (done : List Component) (c : Component) :
    (normalStep kept c).reverse.foldl normalStep done =
      normalStep (kept.reverse.foldl normalStep done) c := by
  have hkeep : (c :: kept).reverse.foldl normalStep done =
      normalStep (kept.reverse.foldl normalStep done) c := by
    rw [List.reverse_cons, List.foldl_append]
    rfl
  cases c with
  | current => rfl
  | root => exact hkeep
  | name text => exact hkeep
  | parent =>
    cases kept with
    | nil => exact hkeep
    | cons d kept =>
      cases d with
      | name text =>
        -- The name is put back by the run over the kept ones and then taken away.
        rw [List.reverse_cons, List.foldl_append]
        rfl
      | root => exact absurd List.mem_cons_self h
      | current => exact hkeep
      | parent => exact hkeep

theorem foldl_reverse_foldl {components kept : List Component} (hkept : .root ∉ kept)
    (h : .root ∉ components) (done : List Component) :
    (components.foldl normalStep kept).reverse.foldl normalStep done =
      components.foldl normalStep (kept.reverse.foldl normalStep done) := by
  induction components generalizing kept with
  | nil => rfl
  | cons c components ih =>
    obtain ⟨hc, hcomponents⟩ := List.ne_and_not_mem_of_not_mem_cons h
    have hstep : .root ∉ normalStep kept c := fun hmem => (mem_normalStep hmem).elim hkept hc
    rw [List.foldl_cons, List.foldl_cons, ih hstep hcomponents, foldl_reverse_normalStep hkept]

/-- Behind anything, what is left of some components does the same as the components. -/
theorem normalOf_append_normalOf (front : List Component) {back : List Component}
    (h : .root ∉ back) : normalOf (front ++ normalOf back) = normalOf (front ++ back) := by
  have hback := foldl_reverse_foldl List.not_mem_nil h (front.foldl normalStep [])
  rw [normalOf, normalOf, normalOf, List.foldl_append, List.foldl_append]
  exact congrArg List.reverse hback

theorem normalOf_append_congr {front front' : List Component}
    (h : normalOf front = normalOf front') (back : List Component) :
    normalOf (front ++ back) = normalOf (front' ++ back) := by
  have hfold : front.foldl normalStep [] = front'.foldl normalStep [] := List.reverse_inj.mp h
  rw [normalOf, normalOf, List.foldl_append, List.foldl_append, hfold]

end parts

section join

theorem normalForm_components_normalize (p : Path) : NormalForm p.normalize.components :=
  p.isNormal_normalize.normalForm

theorem components_normalize_eq (p : Path) : p.normalize.components = normalOf p.components := by
  rw [components_normalize, normalComponents_eq]

theorem normalOf_components_normalize (p : Path) :
    normalOf p.normalize.components = normalOf p.components := by
  rw [p.normalForm_components_normalize.normalOf_eq, components_normalize_eq]

/-- The text of a relative path in normal form adds its components behind a slash. -/
theorem trail_normalize {p : Path} (h : p.isAbsolute = false) :
    trail p.normalize.text = normalOf (trail p.text) := by
  have hnormal : p.normalize.components = normalOf (trail p.text) := by
    rw [components_normalize_eq]
    rcases components_of_relative h with htrail | htrail
    · rw [htrail]
    · rw [htrail]
      rfl
  rw [← hnormal]
  rcases components_of_relative ((isAbsolute_normalize p).trans h) with htrail | htrail
  · exact htrail.symm
  · refine absurd ?_ p.normalForm_components_normalize.current_not_mem
    rw [htrail]
    exact List.mem_cons_self

/-- A path may be normalised before something is joined to it, and what is joined to it may be
normalised before. -/
theorem normalize_join_normalize (a b : Path) :
    (a.join b.text).normalize = (a.normalize.join b.normalize.text).normalize := by
  rw [normalize_eq_iff, components_normalize_join, components_normalize_join]
  have hsame := isAbsolute_normalize b
  by_cases h : b.isAbsolute = true
  · have hnormal : b.normalize.isAbsolute = true := hsame.trans h
    rw [if_pos h, if_pos hnormal, List.singleton_append, List.singleton_append,
      ← components_of_isAbsolute h, ← components_of_isAbsolute hnormal]
    exact b.normalOf_components_normalize.symm
  · have hrel : b.isAbsolute = false := Bool.eq_false_iff.mpr h
    have hnormal : b.normalize.isAbsolute = false := hsame.trans hrel
    rw [if_neg h, if_neg (Bool.eq_false_iff.mp hnormal), trail_normalize hrel,
      normalOf_append_normalOf _ (root_not_mem_trail _)]
    exact normalOf_append_congr a.normalOf_components_normalize.symm _

/-- A normal path has no `.`, has `..` only in front and none behind a root, is absolute if the
path was, and is kept when it is normalised again, as every path in normal form is. Whether two
paths are normalised before they are joined makes no difference once the whole is normalised. -/
theorem normalize_canonical_and_join (p a b : Path) :
    .current ∉ p.normalize.components ∧ ParentsFirst p.normalize.components ∧
      (p.isAbsolute = true → .parent ∉ p.normalize.components) ∧
      p.normalize.isAbsolute = p.isAbsolute ∧ p.normalize.normalize = p.normalize ∧
      (p.IsNormal ↔ p.normalize = p) ∧
      (a.join b.text).normalize = (a.normalize.join b.normalize.text).normalize := by
  refine ⟨p.normalForm_components_normalize.current_not_mem,
    p.normalForm_components_normalize.parentsFirst, ?_, isAbsolute_normalize p,
    p.isNormal_normalize.normalize_eq, isNormal_iff, normalize_join_normalize a b⟩
  intro habs
  obtain ⟨names, hp, hnames⟩ := isPlain_normalize habs
  rw [hp]
  simpa using parent_not_mem_names hnames

-- A `..` at the front of a joined path takes away a name of the path before it.
example : ((Path.mk "src/./token").join "../../../lib//oz/.").normalize = ⟨"../lib/oz"⟩ := by decide

end join

section between

/-- A path can lead from `base` to `target`: both start at the root, or neither does and no `..`
is left of `base` behind a front that both have in common. -/
def Connected (base target : Path) : Prop :=
  (base.isAbsolute = true ∧ target.isAbsolute = true) ∨
    base.isAbsolute = false ∧ target.isAbsolute = false ∧ ∃ front rest rest',
      base.normalize.components = front ++ rest ∧ target.normalize.components = front ++ rest' ∧
        .parent ∉ rest

theorem dropCommon_spec (as bs : List Component) :
    ∃ common, as = common ++ (dropCommon as bs).1 ∧ bs = common ++ (dropCommon as bs).2 := by
  fun_induction dropCommon as bs with
  | case1 as a bs ih =>
    obtain ⟨common, has, hbs⟩ := ih
    exact ⟨a :: common, by rw [List.cons_append, ← has], by rw [List.cons_append, ← hbs]⟩
  | case2 => exact ⟨[], rfl, rfl⟩
  | case3 => exact ⟨[], rfl, rfl⟩

theorem dropCommon_append (front as bs : List Component) :
    dropCommon (front ++ as) (front ++ bs) = dropCommon as bs := by
  induction front with
  | nil => rfl
  | cons c front ih => rw [List.cons_append, List.cons_append, dropCommon, if_pos rfl, ih]

theorem NormalForm.isPart_of_mem {components : List Component} (h : NormalForm components)
    (hroot : .root ∉ components) {c : Component} (hc : c ∈ components) : c.IsPart := by
  obtain ⟨names, hnames, rfl | ⟨n, rfl⟩⟩ := h
  · exact absurd List.mem_cons_self hroot
  · rcases List.mem_append.mp hc with hc | hc
    · rw [(List.mem_replicate.mp hc).2]
      trivial
    · exact (hnames c hc).1

/-- Of connected paths the base has only names for itself, and the target no root. -/
theorem Connected.exists_common {base target : Path} (h : base.Connected target) :
    ∃ front rest rest', base.normalize.components = front ++ rest ∧
      target.normalize.components = front ++ rest' ∧ (∀ c ∈ rest, c.IsName) ∧
      ∀ c ∈ rest', c.IsPart := by
  rcases h with ⟨hbase, htarget⟩ | ⟨hbase, htarget, front, rest, rest', hb, ht, hparent⟩
  · obtain ⟨names, hb, hnames⟩ := isPlain_normalize hbase
    obtain ⟨names', ht, hnames'⟩ := isPlain_normalize htarget
    exact ⟨[.root], names, names', hb, ht, hnames, fun c hc => (hnames' c hc).1⟩
  · have hparts : ∀ p : Path, p.isAbsolute = false → ∀ c ∈ p.normalize.components, c.IsPart :=
      fun p hp _ hc => p.normalForm_components_normalize.isPart_of_mem
        (root_not_mem_of_relative ((isAbsolute_normalize p).trans hp)) hc
    refine ⟨front, rest, rest', hb, ht, fun c hc => ⟨?_, ?_⟩, fun c hc => ?_⟩
    · exact hparts base hbase c (hb ▸ List.mem_append_right _ hc)
    · rintro rfl
      exact hparent hc
    · exact hparts target htarget c (ht ▸ List.mem_append_right _ hc)

/-- Between connected paths `relativeTo` writes parts with every `..` in front, which lead from the
base to the target. -/
theorem Connected.exists_parts {base target : Path} (h : base.Connected target) :
    ∃ parts, target.relativeTo base = ofComponents parts ∧ (∀ c ∈ parts, c.IsPart) ∧
      ParentsFirst parts ∧
      normalOf (base.normalize.components ++ parts) = target.normalize.components := by
  obtain ⟨front, rest, rest', hb, ht, hnames, hparts⟩ := h.exists_common
  obtain ⟨common, hup, hdown⟩ := dropCommon_spec rest rest'
  have hsplit : dropCommon base.normalComponents target.normalComponents =
      dropCommon rest rest' := by
    rw [← components_normalize, ← components_normalize, hb, ht, dropCommon_append]
  cases hdrop : dropCommon rest rest' with
  | mk up down =>
    rw [hdrop] at hup hdown
    dsimp only at hup hdown
    have hupNames : ∀ c ∈ up, c.IsName := fun c hc =>
      hnames c (hup ▸ List.mem_append_right _ hc)
    have hdownParts : ∀ c ∈ down, c.IsPart := fun c hc =>
      hparts c (hdown ▸ List.mem_append_right _ hc)
    refine ⟨up.map (fun _ => .parent) ++ down, ?_, ?_, ?_, ?_⟩
    · unfold relativeTo
      rw [hsplit, hdrop]
      split
      next rest heq =>
        cases heq
        exact (hdownParts .root List.mem_cons_self).elim
      next heq =>
        cases heq
        rfl
    · intro c hc
      rcases List.mem_append.mp hc with hc | hc
      · obtain ⟨-, -, rfl⟩ := List.mem_map.mp hc
        trivial
      · exact hdownParts c hc
    · have hfirst := target.normalForm_components_normalize.parentsFirst
      rw [ht, hdown, ← List.append_assoc] at hfirst
      rw [List.map_const']
      exact hfirst.of_append.replicate_append up.length
    · rw [hb, hup, ← List.append_assoc front, normalOf_append_parents hupNames,
        List.append_assoc, ← hdown, ← ht, target.normalForm_components_normalize.normalOf_eq]

/-- What is written as a path from one of two connected paths to the other leads there from any
spelling of the first, is relative, and goes up before it goes down; so does its text with single
slashes. -/
theorem relativeTo_leads_to_target (base target : Path) (h : base.Connected target) :
    ∀ text ∈ [(target.relativeTo base).text, (target.relativeTo base).toSlash],
      (base.join text).normalize = target.normalize ∧ (Path.mk text).isAbsolute = false ∧
        ParentsFirst (Path.mk text).components := by
  obtain ⟨parts, hrelative, hparts, hfirst, hlead⟩ := h.exists_parts
  have hcomponents := components_ofComponents ⟨parts, Or.inl rfl, hparts⟩
  have hboth : (target.relativeTo base).text = slashed parts ∧
      (target.relativeTo base).toSlash = slashed parts := by
    rw [hrelative, toSlash, hcomponents, ofComponents_parts hparts, slashed_parts hparts]
    exact ⟨rfl, rfl⟩
  have hpath : Path.mk (slashed parts) = ofComponents parts := by
    rw [slashed_parts hparts, ofComponents_parts hparts]
  have hrel := isAbsolute_slashed hparts
  have hjoin : (base.join (slashed parts)).normalize = target.normalize := by
    rw [normalize_eq_iff, components_normalize_join, if_neg (by simp [hrel]),
      trail_slashed hparts, ← hlead]
    exact normalOf_append_congr base.normalOf_components_normalize.symm parts
  rw [hboth.1, hboth.2]
  intro text htext
  obtain rfl : text = slashed parts := by simpa using htext
  exact ⟨hjoin, hrel, by rwa [hpath, hcomponents]⟩

/-- Two relative paths with a `..` in common, neither of them in normal form. -/
theorem relativeTo_leads_to_interface :
    let base : Path := ⟨"../src/./token/../vault"⟩
    let target : Path := ⟨".././src//interfaces/IVault.sol"⟩
    base.Connected target ∧ (target.relativeTo base).text = "../interfaces/IVault.sol" ∧
      (base.join "../interfaces/IVault.sol").normalize = ⟨"../src/interfaces/IVault.sol"⟩ ∧
      ParentsFirst (Path.mk "../interfaces/IVault.sol").components := by
  intro base target
  have hconnected : base.Connected target := by
    refine Or.inr ⟨by decide, by decide, [.parent, .name "src"], [.name "vault"],
      [.name "interfaces", .name "IVault.sol"], ?_, ?_, ?_⟩
    all_goals decide
  have htext : (target.relativeTo base).text = "../interfaces/IVault.sol" := by decide
  obtain ⟨hjoin, -, hfirst⟩ :=
    relativeTo_leads_to_target base target hconnected _ List.mem_cons_self
  rw [htext] at hjoin hfirst
  have htarget : target.normalize = ⟨"../src/interfaces/IVault.sol"⟩ := by decide
  exact ⟨hconnected, htext, hjoin.trans htarget, hfirst⟩

end between

end Path

end SolidityCompass
