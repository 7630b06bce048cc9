import SolidityCompass.Path.Normal

/-!
# Components of paths

Joining, going to the parent and normalising act on the components of a path: what a text adds
behind a slash is its `trail`, `join` appends trails, `parent?` drops the last component, and the
components of a normalised path are those that normalising leaves. So these operations give paths
of the same components on two spellings of one path.
-/

namespace SolidityCompass

namespace Component

/-- The component can stand behind a slash: it is `..`, or a name that a piece of a text can be. -/
def IsPart : Component → Prop
  | .parent => True
  | .name text => text ≠ "" ∧ text ≠ "." ∧ text ≠ ".." ∧ '/' ∉ text.toList
  | _ => False

theorem IsPart.slash_not_mem {c : Component} (h : c.IsPart) : '/' ∉ c.text.toList := by
  cases c with
  | parent => decide
  | name text => exact h.2.2.2
  | root => exact h.elim
  | current => exact h.elim

theorem IsPart.text_ne {c : Component} (h : c.IsPart) :
    c.text.toList ≠ [] ∧ c.text.toList ≠ ['.'] := by
  cases c with
  | parent => decide
  | name text =>
    obtain ⟨hempty, hdot, -, -⟩ := h
    constructor
    · intro hnil
      exact hempty (String.toList_eq_nil_iff.mp hnil)
    · intro hone
      exact hdot (String.toList_inj.mp hone)
  | root => exact h.elim
  | current => exact h.elim

theorem IsPart.innerComponent? {c : Component} (h : c.IsPart) :
    Path.innerComponent? c.text.toList = some c := by
  unfold Path.innerComponent?
  rw [if_neg (by simpa using h.text_ne)]
  cases c with
  | parent => rfl
  | name text =>
    have hne : text.toList ≠ ['.', '.'] := fun htwo => h.2.2.1 (String.toList_inj.mp htwo)
    simp [Component.text, hne]
  | root => exact h.elim
  | current => exact h.elim

end Component

namespace Path

theorem pieces_eq_splitOn (cs : List Char) : pieces cs = cs.splitOn '/' := by
  induction cs with
  | nil => rfl
  | cons c cs ih =>
    rw [pieces, ih, List.splitOn_cons_eq_if_modifyHead]
    by_cases hc : c = '/'
    · simp [hc]
    · cases h : cs.splitOn '/' with
      | nil => exact absurd h (List.splitOn_ne_nil _ _)
      | cons piece rest => simp [hc]

theorem pieces_ne_nil (cs : List Char) : pieces cs ≠ [] := by
  rw [pieces_eq_splitOn]
  exact List.splitOn_ne_nil _ _

theorem pieces_append_slash (as bs : List Char) :
    pieces (as ++ '/' :: bs) = pieces as ++ pieces bs := by
  simp only [pieces_eq_splitOn, List.splitOn_append_cons_self]

theorem slash_not_mem_of_mem_pieces {cs piece : List Char} (h : piece ∈ pieces cs) :
    '/' ∉ piece := by
  induction cs generalizing piece with
  | nil => simp_all [pieces]
  | cons c cs ih =>
    rw [pieces] at h
    split at h
    next =>
      rcases List.mem_cons.mp h with rfl | h
      · simp
      · exact ih h
    next hc =>
      split at h
      next hnil => exact absurd hnil (pieces_ne_nil cs)
      next first rest hcons =>
        rcases List.mem_cons.mp h with rfl | h
        · have hfirst : '/' ∉ first := ih (by simp [hcons])
          simp [hfirst, Ne.symm hc]
        · exact ih (by simp [hcons, h])

theorem pieces_intercalate {parts : List (List Char)} (hne : parts ≠ [])
    (h : ∀ piece ∈ parts, '/' ∉ piece) : pieces (['/'].intercalate parts) = parts := by
  rw [pieces_eq_splitOn]
  exact List.splitOn_intercalate '/' h hne

theorem pieces_of_not_mem {cs : List Char} (h : '/' ∉ cs) : pieces cs = [cs] := by
  simpa using pieces_intercalate (List.cons_ne_nil cs []) (by simpa using h)

def ofPieces (absolute : Bool) : List (List Char) → List Component
  | [] => if absolute then [.root] else []
  | first :: rest =>
    (if absolute then [.root] else (firstComponent? first).toList) ++ rest.filterMap innerComponent?

theorem components_eq_ofPieces (p : Path) :
    p.components = ofPieces p.isAbsolute (pieces p.text.toList) := by
  unfold components
  split
  next hnil => exact absurd hnil (pieces_ne_nil _)
  next first rest hcons => rw [hcons, ofPieces]

theorem ofPieces_append {absolute : Bool} {front : List (List Char)} (hne : front ≠ [])
    (back : List (List Char)) :
    ofPieces absolute (front ++ back) =
      ofPieces absolute front ++ back.filterMap innerComponent? := by
  cases front with
  | nil => exact absurd rfl hne
  | cons first rest => simp [ofPieces, List.append_assoc]

def trail (text : String) : List Component :=
  (pieces text.toList).filterMap innerComponent?

theorem components_of_isAbsolute {p : Path} (h : p.isAbsolute = true) :
    p.components = .root :: trail p.text := by
  obtain ⟨cs, hcs⟩ : ∃ cs, p.text.toList = '/' :: cs := by
    simpa [isAbsolute, List.head?_eq_some_iff] using h
  rw [components_eq_ofPieces, h, trail, hcs]
  rfl

/-- A relative path may begin with a `.`, which no path has behind a slash. -/
theorem components_of_relative {p : Path} (h : p.isAbsolute = false) :
    p.components = trail p.text ∨ p.components = .current :: trail p.text := by
  rw [components_eq_ofPieces, h, trail]
  cases hp : pieces p.text.toList with
  | nil => exact absurd hp (pieces_ne_nil _)
  | cons first rest =>
    by_cases hfirst : first = ['.']
    · exact Or.inr (by simp [ofPieces, firstComponent?, innerComponent?, hfirst])
    · apply Or.inl
      cases hc : innerComponent? first <;> simp [ofPieces, firstComponent?, hfirst, hc]

theorem components_join {base : Path} {relative : String} (hbase : base.text ≠ "")
    (hrel : (Path.mk relative).isAbsolute = false) :
    (base.join relative).components = base.components ++ trail relative := by
  have hne : base.text.toList ≠ [] := fun hnil => hbase (String.toList_eq_nil_iff.mp hnil)
  unfold join
  rw [if_neg (by simp [hrel, hbase])]
  by_cases hlast : base.text.toList.getLast? = some '/'
  · rw [if_pos hlast]
    obtain ⟨front, hfront⟩ := List.getLast?_eq_some_iff.mp hlast
    have habs : (Path.mk (base.text ++ relative)).isAbsolute = base.isAbsolute := by
      simp only [isAbsolute, String.toList_append, hfront]
      cases front <;> simp
    rw [components_eq_ofPieces, components_eq_ofPieces, habs, String.toList_append, hfront,
      List.append_assoc, List.singleton_append, pieces_append_slash, pieces_append_slash,
      ofPieces_append (pieces_ne_nil _), ofPieces_append (pieces_ne_nil _)]
    simp [trail, pieces, innerComponent?]
  · rw [if_neg hlast]
    have habs : (Path.mk (base.text ++ "/" ++ relative)).isAbsolute = base.isAbsolute := by
      simp only [isAbsolute, String.toList_append, List.append_assoc]
      cases hcs : base.text.toList with
      | nil => exact absurd hcs hne
      | cons c cs => rfl
    have htext : (base.text ++ "/" ++ relative).toList =
        base.text.toList ++ '/' :: relative.toList := by
      simp [String.toList_append]
    rw [components_eq_ofPieces, components_eq_ofPieces, habs, htext, pieces_append_slash,
      ofPieces_append (pieces_ne_nil _), trail]

def normalOf (components : List Component) : List Component :=
  (components.foldl normalStep []).reverse

theorem normalComponents_eq (p : Path) : p.normalComponents = normalOf p.components := rfl

theorem join_of_isAbsolute (base : Path) {path : String} (h : (Path.mk path).isAbsolute = true) :
    base.join path = ⟨path⟩ := by
  unfold join
  rw [if_pos (by simp [h])]

theorem normalComponents_join (base : Path) {relative : String}
    (hrel : (Path.mk relative).isAbsolute = false) :
    (base.join relative).normalComponents = normalOf (base.components ++ trail relative) := by
  rw [normalComponents_eq]
  by_cases hbase : base.text = ""
  · have hempty : base.components = [] := by
      rw [components_eq_ofPieces, isAbsolute, hbase]
      rfl
    have hjoin : base.join relative = ⟨relative⟩ := by
      unfold join
      rw [if_pos (by simp [hbase])]
    rw [hjoin, hempty, List.nil_append]
    rcases components_of_relative hrel with htrail | hcurrent
    · rw [htrail]
    · rw [hcurrent]
      rfl
  · rw [components_join hbase hrel]

/-- What is joined to two spellings of a path and normalised is one path. -/
theorem normalize_join_congr {base base' : Path} (h : base.components = base'.components)
    (path : String) : (base.join path).normalize = (base'.join path).normalize := by
  by_cases hpath : (Path.mk path).isAbsolute = true
  · rw [join_of_isAbsolute base hpath, join_of_isAbsolute base' hpath]
  · have hrel : (Path.mk path).isAbsolute = false := by simpa using hpath
    rw [normalize, normalize, normalComponents_join base hrel, normalComponents_join base' hrel, h]

theorem innerComponent?_eq_some {piece : List Char} {c : Component} (hslash : '/' ∉ piece)
    (h : innerComponent? piece = some c) : c.IsPart := by
  unfold innerComponent? at h
  split at h
  next => cases h
  next hne =>
    split at h
    next => cases h; trivial
    next htwo =>
      cases h
      simp only [Bool.or_eq_true, decide_eq_true_eq, not_or] at hne
      simp only [Component.IsPart, ne_eq, ← String.toList_inj, String.toList_ofList]
      exact ⟨hne.1, hne.2, htwo, hslash⟩

theorem isPart_of_mem_trail {text : String} {c : Component} (h : c ∈ trail text) : c.IsPart := by
  obtain ⟨piece, hpiece, hc⟩ := List.mem_filterMap.mp h
  exact innerComponent?_eq_some (slash_not_mem_of_mem_pieces hpiece) hc

section parent

theorem isAbsolute_iff_pieces (p : Path) :
    p.isAbsolute = true ↔ ∃ piece rest, pieces p.text.toList = [] :: piece :: rest := by
  unfold isAbsolute
  cases hcs : p.text.toList with
  | nil => simp [pieces]
  | cons c cs =>
    obtain ⟨piece, rest, hp⟩ := List.exists_cons_of_ne_nil (pieces_ne_nil cs)
    by_cases hc : c = '/' <;> simp [pieces, hc, hp]

theorem ofPieces_dropEmptyPieces (absolute : Bool) (last : List (List Char)) :
    ofPieces absolute (dropEmptyPieces last).reverse = ofPieces absolute last.reverse := by
  fun_induction dropEmptyPieces last with
  | case1 => rfl
  | case2 => cases absolute <;> simp [ofPieces, firstComponent?, innerComponent?]
  | case3 => rfl
  | case4 piece rest hrest hpiece ih =>
    have hne : rest.reverse ≠ [] := by simpa using hrest
    have hnone : innerComponent? piece = none := by simp_all [innerComponent?]
    rw [ih, List.reverse_cons, ofPieces_append hne]
    simp [hnone]
  | case5 => rfl

theorem dropEmptyPieces_suffix (last : List (List Char)) : dropEmptyPieces last <:+ last := by
  fun_induction dropEmptyPieces last with
  | case1 => exact List.suffix_refl _
  | case2 => exact List.nil_suffix
  | case3 => exact List.suffix_refl _
  | case4 piece rest _ _ ih => exact ih.trans (List.suffix_cons _ _)
  | case5 => exact List.suffix_refl _

/-- The first of the kept pieces is a component: it is not empty, and a `.` only if it is alone. -/
theorem dropEmptyPieces_eq_cons {last rest : List (List Char)} {piece : List Char}
    (h : dropEmptyPieces last = piece :: rest) :
    piece ≠ [] ∧ (rest ≠ [] → piece ≠ ['.']) := by
  fun_induction dropEmptyPieces last with
  | case1 => cases h
  | case2 => cases h
  | case3 first hfirst =>
    cases h
    exact ⟨hfirst, fun hne => absurd rfl hne⟩
  | case4 _ _ _ _ ih => exact ih h
  | case5 first rest' _ hfirst =>
    cases h
    simp only [Bool.or_eq_true, decide_eq_true_eq, not_or] at hfirst
    exact ⟨hfirst.1, fun _ => hfirst.2⟩

theorem exists_innerComponent? {piece : List Char} (hempty : piece ≠ []) (hdot : piece ≠ ['.']) :
    ∃ c, innerComponent? piece = some c ∧ c ≠ .root := by
  unfold innerComponent?
  rw [if_neg (by simp [hempty, hdot])]
  split
  · exact ⟨.parent, rfl, by simp⟩
  · exact ⟨.name (String.ofList piece), rfl, by simp⟩

theorem exists_firstComponent? {piece : List Char} (hempty : piece ≠ []) :
    ∃ c, firstComponent? piece = some c ∧ c ≠ .root := by
  unfold firstComponent?
  split
  next => exact ⟨.current, rfl, by simp⟩
  next hdot => exact exists_innerComponent? hempty hdot

/-- A path made of the first pieces of another one, as long as these are more than the root. -/
theorem components_of_firstPieces {p : Path} {kept : List (List Char)}
    (hinit : kept.reverse <+: pieces p.text.toList) (hne : kept ≠ []) (hroot : kept ≠ [[]]) :
    (Path.mk ("/".intercalate (kept.reverse.map String.ofList))).components =
      ofPieces p.isAbsolute kept.reverse := by
  have hslash : ∀ piece ∈ kept.reverse, '/' ∉ piece := fun piece hpiece =>
    slash_not_mem_of_mem_pieces (hinit.mem hpiece)
  have htext : ("/".intercalate (kept.reverse.map String.ofList)).toList =
      ['/'].intercalate kept.reverse := by
    simp [String.toList_intercalate, Function.comp_def]
  have hpieces := pieces_intercalate (by simpa using hne) hslash
  rw [components_eq_ofPieces, htext, hpieces]
  congr 1
  rw [Bool.eq_iff_iff, isAbsolute_iff_pieces, isAbsolute_iff_pieces, htext, hpieces]
  obtain ⟨more, hmore⟩ := hinit
  rw [← hmore]
  cases hk : kept.reverse with
  | nil => simp_all
  | cons first rest =>
    cases rest with
    | nil =>
      have hfirst : first ≠ [] := by
        rintro rfl
        exact hroot (by simpa using congrArg List.reverse hk)
      simp [hfirst]
    | cons second rest => simp

/-- The parent has the components of the path without the last one; the root and the empty path
have no parent. -/
theorem parent?_cases (p : Path) :
    (p.parent? = none ∧ (p.components = [] ∨ p.components = [.root])) ∨
      ∃ d c, p.parent? = some d ∧ p.components = d.components ++ [c] ∧ c ≠ .root := by
  have hall := ofPieces_dropEmptyPieces p.isAbsolute (pieces p.text.toList).reverse
  rw [List.reverse_reverse, ← components_eq_ofPieces] at hall
  have hsuffix := dropEmptyPieces_suffix (pieces p.text.toList).reverse
  unfold parent?
  cases hlast : dropEmptyPieces (pieces p.text.toList).reverse with
  | nil =>
    refine Or.inl ⟨rfl, ?_⟩
    rw [← hall, hlast]
    cases p.isAbsolute
    · exact Or.inl rfl
    · exact Or.inr rfl
  | cons last rest =>
    obtain ⟨hempty, hdot⟩ := dropEmptyPieces_eq_cons hlast
    rw [hlast] at hall hsuffix
    have hinit : (last :: rest).reverse <+: pieces p.text.toList := by
      simpa using List.reverse_prefix.mpr hsuffix
    apply Or.inr
    cases rest with
    | nil =>
      have habs : p.isAbsolute = false := by
        rw [Bool.eq_false_iff, ne_eq, isAbsolute_iff_pieces]
        rintro ⟨piece, rest, hp⟩
        obtain ⟨more, hmore⟩ := hinit
        simp [hp, hempty] at hmore
      obtain ⟨c, hc, hroot⟩ := exists_firstComponent? hempty
      refine ⟨⟨""⟩, c, by simp [dropEmptyPieces, habs], ?_, hroot⟩
      rw [← hall, habs]
      simp [ofPieces, hc, show (Path.mk "").components = [] from rfl]
    | cons next rest =>
      obtain ⟨c, hc, hroot⟩ := exists_innerComponent? hempty (hdot (List.cons_ne_nil _ _))
      have hrest := ofPieces_dropEmptyPieces p.isAbsolute (next :: rest)
      have hsplit : p.components = ofPieces p.isAbsolute (next :: rest).reverse ++ [c] := by
        rw [← hall, List.reverse_cons, ofPieces_append (by simp)]
        simp [hc]
      rw [hsplit, ← hrest]
      dsimp only
      cases hkept : dropEmptyPieces (next :: rest) with
      | nil =>
        refine ⟨_, c, rfl, ?_, hroot⟩
        cases p.isAbsolute <;> rfl
      | cons first kept =>
        refine ⟨_, c, rfl, ?_, hroot⟩
        congr 1
        refine (components_of_firstPieces ?_ (List.cons_ne_nil _ _) ?_).symm
        · have hkeep := dropEmptyPieces_suffix (next :: rest)
          rw [hkept] at hkeep
          have hfront := List.reverse_prefix.mpr (hkeep.trans (List.suffix_cons last _))
          exact hfront.trans hinit
        · have hfirst := (dropEmptyPieces_eq_cons hkept).1
          simp [hfirst]

/-- Two spellings of one path both have a parent or both have none, and the parents are two
spellings of one path. -/
theorem parent?_congr {p q : Path} (h : p.components = q.components) :
    (p.parent? = none ∧ q.parent? = none) ∨
      ∃ d e, p.parent? = some d ∧ q.parent? = some e ∧ d.components = e.components := by
  rcases p.parent?_cases with ⟨hp, hend⟩ | ⟨d, c, hp, hd, hc⟩ <;>
    rcases q.parent?_cases with ⟨hq, hend'⟩ | ⟨e, c', hq, he, hc'⟩
  · exact Or.inl ⟨hp, hq⟩
  · exfalso
    rw [h, he] at hend
    rcases hend with hnil | hone
    · simp at hnil
    · obtain ⟨-, hroot⟩ := List.append_inj' (hone.trans (List.nil_append [_]).symm) rfl
      exact hc' (by simpa using hroot)
  · exfalso
    rw [← h, hd] at hend'
    rcases hend' with hnil | hone
    · simp at hnil
    · obtain ⟨-, hroot⟩ := List.append_inj' (hone.trans (List.nil_append [_]).symm) rfl
      exact hc (by simpa using hroot)
  · refine Or.inr ⟨d, e, hp, hq, ?_⟩
    rw [hd, he] at h
    exact (List.append_inj' h rfl).1

end parent

section normal

/-- The components can be written as a path: `..` and names, behind a root or alone. -/
def Written (components : List Component) : Prop :=
  ∃ parts, (components = parts ∨ components = .root :: parts) ∧ ∀ c ∈ parts, c.IsPart

theorem filterMap_innerComponent? {parts : List Component} (h : ∀ c ∈ parts, c.IsPart) :
    (parts.map fun c => c.text.toList).filterMap innerComponent? = parts := by
  induction parts with
  | nil => rfl
  | cons c parts ih =>
    rw [List.map_cons, List.filterMap_cons_some (h c List.mem_cons_self).innerComponent?,
      ih fun d hd => h d (List.mem_cons_of_mem _ hd)]

theorem toList_intercalate_text (parts : List Component) :
    ("/".intercalate (parts.map Component.text)).toList =
      ['/'].intercalate (parts.map fun c => c.text.toList) := by
  simp [String.toList_intercalate, Function.comp_def]

theorem pieces_intercalate_text {parts : List Component} (hne : parts ≠ [])
    (h : ∀ c ∈ parts, c.IsPart) :
    pieces ("/".intercalate (parts.map Component.text)).toList =
      parts.map fun c => c.text.toList := by
  rw [toList_intercalate_text]
  apply pieces_intercalate (by simpa using hne)
  intro piece hpiece
  obtain ⟨c, hc, rfl⟩ := List.mem_map.mp hpiece
  exact (h c hc).slash_not_mem

/-- The components of parts written with slashes between them, as a text behind a slash. -/
theorem trail_intercalate {parts : List Component} (h : ∀ c ∈ parts, c.IsPart) :
    trail ("/".intercalate (parts.map Component.text)) = parts := by
  by_cases hne : parts = []
  · subst hne
    rfl
  · rw [trail, pieces_intercalate_text hne h, filterMap_innerComponent? h]

theorem isAbsolute_intercalate {parts : List Component} (h : ∀ c ∈ parts, c.IsPart) :
    (Path.mk ("/".intercalate (parts.map Component.text))).isAbsolute = false := by
  cases parts with
  | nil => rfl
  | cons c parts =>
    rw [Bool.eq_false_iff, ne_eq, isAbsolute_iff_pieces,
      pieces_intercalate_text (List.cons_ne_nil _ _) h]
    rintro ⟨piece, rest, hp⟩
    exact (h c List.mem_cons_self).text_ne.1 (List.cons.inj hp).1

theorem ofComponents_parts {parts : List Component} (h : ∀ c ∈ parts, c.IsPart) :
    ofComponents parts = ⟨"/".intercalate (parts.map Component.text)⟩ := by
  unfold ofComponents
  split
  next rest => exact (h .root List.mem_cons_self).elim
  next => rfl

theorem components_ofComponents {components : List Component} (h : Written components) :
    (ofComponents components).components = components := by
  obtain ⟨parts, rfl | rfl, hparts⟩ := h
  · rw [ofComponents_parts hparts]
    have hrel := isAbsolute_intercalate hparts
    cases components with
    | nil => rfl
    | cons c parts =>
      have hc := hparts c List.mem_cons_self
      rw [components_eq_ofPieces, hrel, pieces_intercalate_text (List.cons_ne_nil _ _) hparts,
        List.map_cons, ofPieces, firstComponent?, if_neg hc.text_ne.2, hc.innerComponent?,
        filterMap_innerComponent? fun d hd => hparts d (List.mem_cons_of_mem _ hd)]
      rfl
  · have habs : (ofComponents (.root :: parts)).isAbsolute = true := by
      simp [ofComponents, isAbsolute]
    have htext : (ofComponents (.root :: parts)).text.toList =
        [] ++ '/' :: ("/".intercalate (parts.map Component.text)).toList := by
      simp [ofComponents]
    rw [components_of_isAbsolute habs, trail, htext, pieces_append_slash, List.filterMap_append]
    exact congrArg _ (trail_intercalate hparts)

theorem written_normalStep {done : List Component} {c : Component} (h : Written done.reverse)
    (hc : c.IsPart) : Written (normalStep done c).reverse := by
  obtain ⟨parts, hdone, hparts⟩ := h
  have hadd : Written (c :: done).reverse := by
    refine ⟨parts ++ [c], ?_, ?_⟩
    · rcases hdone with hdone | hdone <;> simp [hdone]
    · intro d hd
      rcases List.mem_append.mp hd with hd | hd
      · exact hparts d hd
      · exact List.mem_singleton.mp hd ▸ hc
  cases c with
  | name text => exact hadd
  | root => exact hc.elim
  | current => exact hc.elim
  | parent =>
    unfold normalStep
    dsimp only
    split
    next text rest =>
      -- The name that `..` takes away is the last of the parts.
      rw [List.reverse_cons] at hdone
      refine ⟨parts.dropLast, ?_, fun d hd => hparts d (List.dropLast_subset _ hd)⟩
      rcases hdone with hdone | hdone
      · rw [← hdone]
        simp
      · cases hcases : parts with
        | nil =>
          rw [hcases] at hdone
          obtain ⟨-, hname⟩ := List.append_inj' (hdone.trans (List.nil_append [_]).symm) rfl
          simp at hname
        | cons first more =>
          rw [hcases] at hdone
          have hlast := congrArg List.dropLast hdone
          simpa using Or.inr hlast
    next => exact ⟨parts, hdone, hparts⟩
    next => exact hadd

theorem written_foldl {done parts : List Component} (h : Written done.reverse)
    (hparts : ∀ c ∈ parts, c.IsPart) : Written (parts.foldl normalStep done).reverse := by
  induction parts generalizing done with
  | nil => exact h
  | cons c parts ih =>
    exact ih (written_normalStep h (hparts c List.mem_cons_self))
      fun d hd => hparts d (List.mem_cons_of_mem _ hd)

theorem written_normalComponents (p : Path) : Written p.normalComponents := by
  have htrail : ∀ c ∈ trail p.text, c.IsPart := fun c hc => isPart_of_mem_trail hc
  have hempty : Written [] := ⟨[], Or.inl rfl, by simp⟩
  have hroot : Written [.root] := ⟨[], Or.inr rfl, by simp⟩
  unfold normalComponents
  cases habs : p.isAbsolute with
  | true =>
    rw [components_of_isAbsolute habs, List.foldl_cons]
    exact written_foldl hroot htrail
  | false =>
    rcases components_of_relative habs with htext | htext
    · rw [htext]
      exact written_foldl hempty htrail
    · rw [htext, List.foldl_cons]
      exact written_foldl hempty htrail

theorem components_normalize (p : Path) : p.normalize.components = p.normalComponents :=
  components_ofComponents p.written_normalComponents

end normal

end Path

end SolidityCompass
