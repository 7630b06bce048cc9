import SolidityCompass.Proofs.Paths

/-!
# Plain paths

The components of an absolute path in normal form are names behind the root. Normalising keeps
names, and every `..` takes one of them away. The lemmas on `trail` say what is read where two texts
are put together.
-/

namespace SolidityCompass

@[simp] theorem Component.text_name (text : String) : (Component.name text).text = text := rfl

def Component.IsName (c : Component) : Prop :=
  c.IsPart ∧ c ≠ .parent

theorem Component.IsName.exists_text {c : Component} (h : c.IsName) : ∃ text, c = .name text := by
  obtain ⟨hpart, hparent⟩ := h
  cases c with
  | name text => exact ⟨text, rfl⟩
  | parent => exact absurd rfl hparent
  | root => exact hpart.elim
  | current => exact hpart.elim

namespace Path

def IsPlain (p : Path) : Prop :=
  ∃ names, p.components = .root :: names ∧ ∀ c ∈ names, c.IsName

theorem remainder?_eq_some {p base : Path} {rest : List Component} :
    p.remainder? base = some rest ↔ p.components = base.components ++ rest := by
  unfold remainder? isUnder
  by_cases h : base.components.isPrefixOf p.components = true
  · rw [if_pos h]
    obtain ⟨more, hmore⟩ := List.isPrefixOf_iff_prefix.mp h
    rw [← hmore, List.drop_left, Option.some_inj, List.append_cancel_left_eq]
  · rw [if_neg h]
    refine iff_of_false (by simp) fun happ => h ?_
    exact List.isPrefixOf_iff_prefix.mpr ⟨rest, happ.symm⟩

theorem root_not_mem_trail (text : String) : Component.root ∉ trail text :=
  fun h => isPart_of_mem_trail h

theorem isAbsolute_iff_components (p : Path) :
    p.isAbsolute = true ↔ ∃ rest, p.components = .root :: rest := by
  constructor
  · exact fun h => ⟨_, components_of_isAbsolute h⟩
  · rintro ⟨rest, hrest⟩
    rw [← Bool.not_eq_false]
    intro habs
    rcases components_of_relative habs with htrail | htrail
    · apply root_not_mem_trail p.text
      rw [← htrail, hrest]
      exact List.mem_cons_self
    · rw [htrail] at hrest
      cases hrest

theorem IsPlain.isAbsolute {p : Path} (h : p.IsPlain) : p.isAbsolute = true := by
  obtain ⟨names, hp, -⟩ := h
  exact (isAbsolute_iff_components p).mpr ⟨names, hp⟩

/-- A front of a plain path is empty or plain, and in the latter case names follow it. -/
theorem IsPlain.append_cases {p : Path} (h : p.IsPlain) {front rest : List Component}
    (hp : p.components = front ++ rest) :
    (front = [] ∧ ∃ names, rest = .root :: names ∧ ∀ c ∈ names, c.IsName) ∨
      (∃ names, front = .root :: names ∧ ∀ c ∈ names, c.IsName) ∧ ∀ c ∈ rest, c.IsName := by
  obtain ⟨names, hnames, hname⟩ := h
  rw [hnames] at hp
  cases front with
  | nil => exact Or.inl ⟨rfl, names, hp.symm, hname⟩
  | cons c front =>
    obtain ⟨rfl, hsplit⟩ := List.cons.inj hp
    refine Or.inr ⟨⟨front, rfl, fun c hc => hname c ?_⟩, fun c hc => hname c ?_⟩
    · exact hsplit ▸ List.mem_append_left _ hc
    · exact hsplit ▸ List.mem_append_right _ hc

section normal

theorem foldl_normalStep_names {names : List Component} (h : ∀ c ∈ names, c.IsName)
    (done : List Component) : names.foldl normalStep done = names.reverse ++ done := by
  induction names generalizing done with
  | nil => rfl
  | cons c names ih =>
    obtain ⟨text, rfl⟩ := (h c List.mem_cons_self).exists_text
    have hrest := ih (fun d hd => h d (List.mem_cons_of_mem _ hd)) (.name text :: done)
    rw [List.reverse_cons, List.append_assoc]
    exact hrest

theorem normalOf_append_names (front : List Component) {names : List Component}
    (h : ∀ c ∈ names, c.IsName) : normalOf (front ++ names) = normalOf front ++ names := by
  simp [normalOf, foldl_normalStep_names h]

/-- Every `..` takes away the last of the names in front of it. -/
theorem foldl_normalStep_parents {names : List Component} (h : ∀ c ∈ names, c.IsName)
    (done : List Component) :
    (names.map fun _ => Component.parent).foldl normalStep (names ++ done) = done := by
  induction names with
  | nil => rfl
  | cons c names ih =>
    obtain ⟨text, rfl⟩ := (h c List.mem_cons_self).exists_text
    exact ih fun d hd => h d (List.mem_cons_of_mem _ hd)

theorem normalOf_append_parents {front names : List Component} (h : ∀ c ∈ names, c.IsName)
    (down : List Component) :
    normalOf (front ++ names ++ (names.map (fun _ => .parent) ++ down)) =
      normalOf (front ++ down) := by
  have hreverse : ∀ c ∈ names.reverse, c.IsName := fun c hc => h c (List.mem_reverse.mp hc)
  have hup := foldl_normalStep_parents hreverse (front.foldl normalStep [])
  simp only [List.map_const', List.length_reverse] at hup
  simp only [normalOf, List.foldl_append, foldl_normalStep_names h, List.map_const', hup]

theorem foldl_normalStep_root {names parts : List Component} (h : ∀ c ∈ names, c.IsName)
    (hparts : ∀ c ∈ parts, c.IsPart) :
    ∃ names', parts.foldl normalStep (names ++ [.root]) = names' ++ [.root] ∧
      ∀ c ∈ names', c.IsName := by
  induction parts generalizing names with
  | nil => exact ⟨names, rfl, h⟩
  | cons c parts ih =>
    have hrest : ∀ d ∈ parts, d.IsPart := fun d hd => hparts d (List.mem_cons_of_mem _ hd)
    rw [List.foldl_cons]
    cases c with
    | name text =>
      apply ih (List.forall_mem_cons.mpr ⟨?_, h⟩) hrest
      exact ⟨hparts _ List.mem_cons_self, by simp⟩
    | parent =>
      cases names with
      | nil => exact ih (by simp) hrest
      | cons d names =>
        have hstep := foldl_normalStep_parents
          (List.forall_mem_singleton.mpr (h d List.mem_cons_self)) (names ++ [.root])
        rw [List.cons_append]
        simp only [List.map_cons, List.map_nil, List.foldl_cons, List.foldl_nil,
          List.singleton_append] at hstep
        rw [hstep]
        exact ih (fun e he => h e (List.mem_cons_of_mem _ he)) hrest
    | root => exact (hparts _ List.mem_cons_self).elim
    | current => exact (hparts _ List.mem_cons_self).elim

theorem mem_normalStep {done : List Component} {c d : Component} (h : c ∈ normalStep done d) :
    c ∈ done ∨ c = d := by
  unfold normalStep at h
  split at h
  · exact Or.inl h
  · split at h
    · exact Or.inl (List.mem_cons_of_mem _ h)
    · exact Or.inl h
    · exact (List.mem_cons.mp h).symm
  · exact (List.mem_cons.mp h).symm

theorem mem_foldl_normalStep {components done : List Component} {c : Component}
    (h : c ∈ components.foldl normalStep done) : c ∈ done ∨ c ∈ components := by
  induction components generalizing done with
  | nil => exact Or.inl h
  | cons d components ih =>
    rcases ih h with hstep | hrest
    · rcases mem_normalStep hstep with hdone | rfl
      · exact Or.inl hdone
      · exact Or.inr List.mem_cons_self
    · exact Or.inr (List.mem_cons_of_mem _ hrest)

theorem root_not_mem_normalOf {components : List Component} (h : .root ∉ components) :
    .root ∉ normalOf components := by
  intro hroot
  rcases mem_foldl_normalStep (List.mem_reverse.mp hroot) with hmem | hmem
  · cases hmem
  · exact h hmem

theorem isPlain_normalize {p : Path} (h : p.isAbsolute = true) : p.normalize.IsPlain := by
  have hempty : ∀ c ∈ ([] : List Component), c.IsName := by simp
  obtain ⟨names, hfold, hnames⟩ := foldl_normalStep_root hempty
    (fun c (hc : c ∈ trail p.text) => isPart_of_mem_trail hc)
  refine ⟨names.reverse, ?_, fun c hc => hnames c (List.mem_reverse.mp hc)⟩
  rw [components_normalize, normalComponents, components_of_isAbsolute h, List.foldl_cons]
  have hroot : normalStep [] .root = [] ++ [.root] := rfl
  rw [hroot, hfold]
  simp

theorem isAbsolute_join {base : Path} (h : base.isAbsolute = true) (text : String) :
    (base.join text).isAbsolute = true := by
  by_cases htext : (Path.mk text).isAbsolute = true
  · rw [join_of_isAbsolute base htext, htext]
  · have hne : base.text ≠ "" := by
      intro hempty
      simp [isAbsolute, hempty] at h
    rw [isAbsolute_iff_components, components_join hne (Bool.eq_false_iff.mpr htext),
      components_of_isAbsolute h]
    exact ⟨_, rfl⟩

theorem IsPlain.normalOf_components {p : Path} (h : p.IsPlain) :
    normalOf p.components = p.components := by
  obtain ⟨names, hp, hnames⟩ := h
  rw [hp]
  exact normalOf_append_names [.root] hnames

theorem normalOf_components_of_cases {p : Path} (h : p.components = [] ∨ p.IsPlain) :
    normalOf p.components = p.components := by
  rcases h with hempty | hplain
  · rw [hempty]
    rfl
  · exact hplain.normalOf_components

/-- What is joined to a path and normalised starts at the root if it is absolute, and at the path
otherwise. -/
theorem components_normalize_join (base : Path) (text : String) :
    (base.join text).normalize.components =
      normalOf ((if (Path.mk text).isAbsolute then [.root] else base.components) ++
        trail text) := by
  rw [components_normalize]
  by_cases h : (Path.mk text).isAbsolute = true
  · rw [if_pos h, join_of_isAbsolute base h, normalComponents_eq, components_of_isAbsolute h]
    rfl
  · rw [if_neg h, normalComponents_join base (Bool.eq_false_iff.mpr h)]

end normal

section texts

theorem filter_current {parts : List Component} (h : ∀ c ∈ parts, c.IsPart) :
    parts.filter (· != .current) = parts := by
  apply List.filter_eq_self.mpr
  intro c hc
  cases c with
  | current => exact (h _ hc).elim
  | _ => rfl

theorem slashed_parts {parts : List Component} (h : ∀ c ∈ parts, c.IsPart) :
    slashed parts = "/".intercalate (parts.map Component.text) := by
  rw [slashed, filter_current h, ofComponents_parts h]

theorem slashed_root {parts : List Component} (h : ∀ c ∈ parts, c.IsPart) :
    slashed (.root :: parts) = "/" ++ slashed parts := by
  rw [slashed_parts h, slashed, List.filter_cons_of_pos rfl, filter_current h, ofComponents]

theorem trail_slashed {parts : List Component} (h : ∀ c ∈ parts, c.IsPart) :
    trail (slashed parts) = parts := by
  rw [slashed_parts h, trail_intercalate h]

theorem isAbsolute_slashed {parts : List Component} (h : ∀ c ∈ parts, c.IsPart) :
    (Path.mk (slashed parts)).isAbsolute = false := by
  rw [slashed_parts h]
  exact isAbsolute_intercalate h

theorem trail_append_slash (front back : String) :
    trail (front ++ "/" ++ back) = trail front ++ trail back := by
  have htext : (front ++ "/" ++ back).toList = front.toList ++ '/' :: back.toList := by simp
  rw [trail, htext, pieces_append_slash, List.filterMap_append, trail, trail]

theorem trail_slash (text : String) : trail ("/" ++ text) = trail text :=
  trail_append_slash "" text

theorem trail_dot_slash (text : String) : trail ("./" ++ text) = trail text := by
  have htext : ("./" ++ text).toList = ['.'] ++ '/' :: text.toList := by simp
  rw [trail, htext, pieces_append_slash, List.filterMap_append]
  rfl

theorem trail_append_of_slash {front : String} (h : front.toList.getLast? = some '/')
    (back : String) : trail (front ++ back) = trail front ++ trail back := by
  obtain ⟨init, hinit⟩ := List.getLast?_eq_some_iff.mp h
  obtain rfl : front = String.ofList init ++ "/" := by
    rw [← String.toList_inj, hinit]
    simp
  have hfront := trail_append_slash (String.ofList init) ""
  rw [String.append_empty] at hfront
  rw [trail_append_slash, hfront, show trail "" = [] from rfl, List.append_nil]

theorem isAbsolute_slash (text : String) : (Path.mk ("/" ++ text)).isAbsolute = true := by
  simp [isAbsolute]

theorem slashed_cons {c : Component} {parts : List Component} (hne : parts ≠ [])
    (h : ∀ d ∈ c :: parts, d.IsPart) :
    slashed (c :: parts) = c.text ++ "/" ++ slashed parts := by
  rw [slashed_parts h, slashed_parts fun d hd => h d (List.mem_cons_of_mem _ hd)]
  cases parts with
  | nil => exact absurd rfl hne
  | cons d parts => simp [String.intercalate_cons_cons]

/-- What stands in front of a slash in a written path is one of its parts. -/
theorem exists_part_of_slashed {parts : List Component} (h : ∀ c ∈ parts, c.IsPart)
    (front : List Char) {back : List Char} (hfront : '/' ∉ front)
    (htext : (slashed parts).toList = front ++ '/' :: back) :
    ∃ c ∈ parts, c.text.toList = front := by
  have hne : parts ≠ [] := by
    rintro rfl
    have hempty : (slashed []).toList = [] := rfl
    simp [hempty] at htext
  have hpieces := pieces_intercalate_text hne h
  rw [← slashed_parts h, htext, pieces_append_slash, pieces_of_not_mem hfront] at hpieces
  have hmem : front ∈ parts.map fun c => c.text.toList := by
    rw [← hpieces]
    exact List.mem_cons_self
  obtain ⟨c, hc, hcfront⟩ := List.mem_map.mp hmem
  exact ⟨c, hc, hcfront⟩

/-- No written name is a `.` or a `..`, which an import may start with. -/
theorem slashed_names_no_dots {names : List Component} (h : ∀ c ∈ names, c.IsName) :
    ['.', '/'].isPrefixOf (slashed names).toList = false ∧
      ['.', '.', '/'].isPrefixOf (slashed names).toList = false := by
  have hparts : ∀ c ∈ names, c.IsPart := fun c hc => (h c hc).1
  constructor <;> rw [Bool.eq_false_iff] <;> intro hdots <;>
    obtain ⟨back, hback⟩ := List.isPrefixOf_iff_prefix.mp hdots
  · obtain ⟨c, hc, htext⟩ := exists_part_of_slashed hparts ['.'] (by simp) hback.symm
    exact (hparts c hc).text_ne.2 htext
  · obtain ⟨c, hc, htext⟩ := exists_part_of_slashed hparts ['.', '.'] (by simp) hback.symm
    obtain ⟨text, rfl⟩ := (h c hc).exists_text
    exact (hparts _ hc).2.2.1 (String.toList_inj.mp htext)

/-- The last piece of a text takes in the first piece of what is put behind it. -/
theorem exists_pieces_append (front : List Char) :
    ∃ before last, (last = [] → front = [] ∨ front.getLast? = some '/') ∧
      ∀ back piece rest, pieces back = piece :: rest →
        pieces (front ++ back) = before ++ (last ++ piece) :: rest := by
  induction front with
  | nil => exact ⟨[], [], fun _ => Or.inl rfl, fun _ _ _ hback => hback⟩
  | cons c front ih =>
    obtain ⟨before, last, hlast, hpieces⟩ := ih
    by_cases hc : c = '/'
    · refine ⟨[] :: before, last, fun hnil => Or.inr ?_, fun back piece rest hback => ?_⟩
      · rcases hlast hnil with hfront | hfront
        · simp [hfront, hc]
        · simp [List.getLast?_cons, hfront]
      · rw [List.cons_append, pieces, if_pos hc, hpieces back piece rest hback]
        rfl
    · cases before with
      | nil =>
        refine ⟨[], c :: last, fun hnil => by simp at hnil, fun back piece rest hback => ?_⟩
        rw [List.cons_append, pieces, if_neg hc, hpieces back piece rest hback]
        rfl
      | cons first before =>
        refine ⟨(c :: first) :: before, last, fun hnil => Or.inr ?_,
          fun back piece rest hback => ?_⟩
        · rcases hlast hnil with hfront | hfront
          · have hempty := hpieces [] [] [] rfl
            simp [hfront, pieces] at hempty
          · simp [List.getLast?_cons, hfront]
        · rw [List.cons_append, pieces, if_neg hc, hpieces back piece rest hback]
          rfl

/-- Without a slash between two texts, the last piece of the first one and the first name of the
second one become one name. -/
theorem trail_append_of_no_slash {front : String} {c : Component} {names : List Component}
    (hne : front ≠ "") (hlast : front.toList.getLast? ≠ some '/')
    (h : ∀ d ∈ c :: names, d.IsName) :
    ∃ before d, trail (front ++ slashed (c :: names)) = before ++ d :: names ∧ d.IsName ∧
      d ≠ c := by
  have hparts : ∀ d ∈ c :: names, d.IsPart := fun d hd => (h d hd).1
  obtain ⟨before, last, hend, hpieces⟩ := exists_pieces_append front.toList
  have hlastNe : last ≠ [] := by
    intro hnil
    rcases hend hnil with hfront | hfront
    · exact hne (String.toList_eq_nil_iff.mp hfront)
    · exact hlast hfront
  have htail := pieces_intercalate_text (List.cons_ne_nil _ _) hparts
  rw [← slashed_parts hparts, List.map_cons] at htail
  have hjoined := hpieces _ _ _ htail
  have hslash : '/' ∉ last ++ c.text.toList :=
    slash_not_mem_of_mem_pieces (hjoined ▸ List.mem_append_right _ List.mem_cons_self)
  obtain ⟨text, rfl⟩ := (h c List.mem_cons_self).exists_text
  obtain ⟨hempty, hdot⟩ := (hparts _ List.mem_cons_self).text_ne
  rw [Component.text_name] at hempty hdot hslash hjoined
  have hdots : last ++ text.toList ≠ ['.', '.'] := by
    intro hdots
    cases last with
    | nil => exact hlastNe rfl
    | cons a last =>
      cases last with
      | nil => exact hdot (List.cons.inj hdots).2
      | cons b last =>
        have hnil := (List.cons.inj (List.cons.inj hdots).2).2
        exact hempty (List.append_eq_nil_iff.mp hnil).2
  have hname : (Component.name (String.ofList (last ++ text.toList))).IsName := by
    refine ⟨?_, by simp⟩
    simp only [Component.IsPart, ne_eq, ← String.toList_inj, String.toList_ofList]
    refine ⟨by simp [hempty], ?_, hdots, hslash⟩
    intro hone
    cases last with
    | nil => exact hlastNe rfl
    | cons a last => exact hempty (List.append_eq_nil_iff.mp (List.cons.inj hone).2).2
  refine ⟨before.filterMap innerComponent?, _, ?_, hname, ?_⟩
  · have hinner := hname.1.innerComponent?
    rw [Component.text_name, String.toList_ofList] at hinner
    rw [trail, String.toList_append, hjoined, List.filterMap_append,
      List.filterMap_cons_some hinner,
      filterMap_innerComponent? fun d hd => hparts d (List.mem_cons_of_mem _ hd)]
  · intro heq
    have htext := congrArg String.toList (Component.name.inj heq)
    rw [String.toList_ofList] at htext
    exact hlastNe (List.append_left_eq_self.mp htext)

theorem isAbsolute_append {front : String} (h : front ≠ "") (back : String) :
    (Path.mk (front ++ back)).isAbsolute = (Path.mk front).isAbsolute := by
  unfold isAbsolute
  cases hfront : front.toList with
  | nil => exact absurd (String.toList_eq_nil_iff.mp hfront) h
  | cons c cs => simp [hfront]

end texts

end Path

end SolidityCompass
