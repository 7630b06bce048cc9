import SolidityCompass.Editor.Definition
import SolidityCompass.Proofs.BodyScope
import SolidityCompass.Proofs.DeclaredNames
import SolidityCompass.Proofs.Positions

/-!
# Definitions show the word under the cursor

A definition is found by comparing the word under the cursor with declared names, and declared names
stand in the texts of their files. So the text at a definition is the word again, in a file of the
table, between the positions that the definition gives. Only the name `fallback` may lead elsewhere:
to the keyword of a function without a name.
-/

namespace SolidityCompass

theorem Viewpoint.name_of_mem_visible {P : String → Nat × ByteRange → Prop} {table : Table}
    {offset : Nat} {scope : Scope} (hnames : table.EveryName P)
    (h : (ofOffset table offset).scope = some scope) {v : Variable} (hv : v ∈ scope.visible) :
    P v.name (v.file, v.nameRange) := by
  obtain ⟨⟨c, hc, hf⟩, hlocals⟩ := mem_functions_of_scope h
  have hholds := hnames.function hc hf
  obtain ⟨hmem, hname⟩ := List.mem_filter.mp hv
  rw [List.append_assoc] at hmem
  rcases List.mem_append.mp hmem with hmem | hmem
  · exact hholds.local (hlocals (List.mem_reverse.mp hmem))
  · exact hholds.param hmem (by simpa using hname)

namespace Definition

variable {P : String → Nat × ByteRange → Prop} {table : Table} {word : String}
  {place : Nat × ByteRange}

theorem mem_firstFound {α : Type} {lists : List (List α)} {x : α} (h : x ∈ firstFound lists) :
    ∃ found ∈ lists, x ∈ found := by
  induction lists with
  | nil => cases h
  | cons found rest ih =>
    rw [firstFound] at h
    split at h
    · obtain ⟨later, hlater, hx⟩ := ih h
      exact ⟨later, List.mem_cons_of_mem _ hlater, hx⟩
    · exact ⟨found, List.mem_cons_self, h⟩

theorem name_of_locatedVariables {vs : List Variable}
    (hvs : ∀ v ∈ vs, P v.name (v.file, v.nameRange))
    (h : place ∈ vs.filterMap (locatedVariable? word)) : P word place := by
  obtain ⟨v, hv, hplace⟩ := List.mem_filterMap.mp h
  unfold locatedVariable? at hplace
  split at hplace
  next hname =>
    cases hplace
    exact hname ▸ hvs v hv
  next => cases hplace

theorem name_of_located {α : Type} {name : α → Name} {namesOf : α → List Name}
    (hname : ∀ x, name x ∈ namesOf x) {ds : List (Declared α)}
    (hds : ∀ d ∈ ds, Holds P namesOf d)
    (h : place ∈ ds.filterMap (located? word name)) : P word place := by
  obtain ⟨d, hd, hplace⟩ := List.mem_filterMap.mp h
  unfold located? at hplace
  split at hplace
  next htext =>
    cases hplace
    exact htext ▸ hds d hd _ (hname d.decl)
  next => cases hplace

theorem name_of_inherited {α : Type} {name : α → Name} {namesOf : α → List Name}
    (hname : ∀ x, name x ∈ namesOf x) {held : Declared Contract → List (Declared α)}
    (hheld : ∀ {c}, c ∈ table.contracts → ∀ {d}, d ∈ held c → Holds P namesOf d) {id : Nat}
    (h : place ∈ (table.inherited held id).filterMap (located? word name)) : P word place := by
  refine name_of_located hname (fun d hd => ?_) h
  obtain ⟨c, hc, hmem⟩ := Table.mem_inherited hd
  exact hheld hc hmem

def lineageLocations (table : Table) (id : Nat) (word : String) : List (Nat × ByteRange) :=
  (table.allFunctions id).filterMap (located? word Function.name) ++
    (table.allEvents id).filterMap (located? word Event.name) ++
    (table.allStateVariables id).filterMap (locatedVariable? word) ++
    (table.allStructs id).filterMap (located? word Struct.name) ++
    (table.allEnums id).filterMap (located? word Enum.name)

def placesOf (table : Table) (offset : Nat) (line : String) (word : Word) :
    List (Nat × ByteRange) :=
  if word.start != 0 && line.toList[word.start - 1]? = some '.' then
    memberLocations table offset line (word.start - 1) word.text
  else rootLocations table offset word.text

section names

variable (hnames : table.EveryName P) {offset : Nat}

include hnames

theorem name_of_mem_lineageLocations {id : Nat} (h : place ∈ lineageLocations table id word) :
    P word place := by
  simp only [lineageLocations, List.mem_append] at h
  rcases h with (((h | h) | h) | h) | h
  · exact name_of_inherited (fun _ => List.mem_cons_self) hnames.function h
  · exact name_of_inherited (fun _ => List.mem_cons_self) hnames.event h
  · refine name_of_locatedVariables (fun v hv => ?_) h
    obtain ⟨c, hc, hmem⟩ := Table.mem_inherited hv
    exact hnames.stateVariable hc hmem
  · exact name_of_inherited (fun _ => List.mem_cons_self) hnames.memberStruct h
  · exact name_of_inherited (fun _ => List.mem_cons_self) hnames.memberEnum h

theorem name_of_mem_rootLocations (h : place ∈ rootLocations table offset word) :
    P word place := by
  obtain ⟨found, hfound, hplace⟩ := mem_firstFound h
  simp only [List.mem_cons, List.not_mem_nil, or_false] at hfound
  rcases hfound with rfl | rfl | rfl | rfl
  · cases hscope : (Viewpoint.ofOffset table offset).scope with
    | none => simp [hscope] at hplace
    | some scope =>
      rw [hscope] at hplace
      exact name_of_locatedVariables
        (fun v hv => Viewpoint.name_of_mem_visible hnames hscope hv) hplace
  · split at hplace
    next => cases hplace
    next => exact name_of_mem_lineageLocations hnames hplace
  · exact name_of_located (fun _ => List.mem_cons_self) hnames.contract hplace
  · rcases List.mem_append.mp hplace with hplace | hplace
    · exact name_of_located (fun _ => List.mem_cons_self) hnames.struct hplace
    · exact name_of_located (fun _ => List.mem_cons_self) hnames.enum hplace

theorem name_of_mem_memberLocations {dot : Nat} {line : String}
    (h : place ∈ memberLocations table offset line dot word) : P word place := by
  obtain ⟨m, hm, hplace⟩ := List.mem_filterMap.mp h
  obtain ⟨hmem, hname⟩ := List.mem_filter.mp hm
  have hfound := Viewpoint.locates_of_mem_membersOf hnames hmem place hplace
  rwa [of_decide_eq_true hname] at hfound

theorem name_of_mem_placesOf {line : String} {word : Word}
    (h : place ∈ placesOf table offset line word) : P word.text place := by
  unfold placesOf at h
  split at h
  · exact name_of_mem_memberLocations hnames h
  · exact name_of_mem_rootLocations hnames h

end names

/-- Outside of import literals the definitions are the places of the word, in their order. -/
theorem at?_eq_filterMap_placesOf {document : SourceFile} {p : Position} {line : String}
    {offset : Nat} {word : Word} (hdocument : table.document? = some document)
    (hline : Lines.line? document.text p.line = some line)
    (hoffset : Lines.offset? document.text p = some offset) (hlink : linkAt? table offset = none)
    (hword : Word.at? line p.column = some word) :
    at? table p = (placesOf table offset line word).filterMap fun place =>
      ofRange? table word.text place.1 place.2 := by
  simp only [at?, hdocument, hline, hoffset, hlink, hword]
  rfl

/-- A definition outside of import literals is at a place of a word. -/
theorem exists_place_of_mem_at? {document : SourceFile} {p : Position} {d : Definition}
    (hdocument : table.document? = some document)
    (hlink : ∀ offset, Lines.offset? document.text p = some offset → linkAt? table offset = none)
    (hd : d ∈ at? table p) :
    ∃ line offset word, Lines.line? document.text p.line = some line ∧
      Word.at? line p.column = some word ∧ ∃ place ∈ placesOf table offset line word,
        ofRange? table word.text place.1 place.2 = some d := by
  have hmem := hd
  simp only [at?, hdocument] at hmem
  split at hmem
  next line offset hline hoffset =>
    rw [hlink offset hoffset] at hmem
    dsimp only at hmem
    split at hmem
    next => cases hmem
    next word hword =>
      rw [at?_eq_filterMap_placesOf hdocument hline hoffset (hlink offset hoffset) hword] at hd
      exact ⟨line, offset, word, hline, hword, List.mem_filterMap.mp hd⟩
  next => cases hmem

/-- The definition is in a file of the table and has the path of that file. It covers `shown` in
the text there, between the positions that it gives. -/
def Shows (table : Table) (d : Definition) (shown : String) : Prop :=
  ∃ file front back, table.files[d.file]? = some file ∧ d.path = file.path ∧
    file.text.toList = front ++ shown.toList ++ back ∧
    d.range = ⟨byteLength front, byteLength (front ++ shown.toList)⟩ ∧
    d.start = .after front ∧ d.stop = .after (front ++ shown.toList)

theorem shows_of_isSlice {file : SourceFile} {shown : String} {d : Definition}
    (hfile : table.files[place.1]? = some file) (hslice : IsSlice file.text place.2 shown)
    (hd : ofRange? table word place.1 place.2 = some d) : d.Shows table shown := by
  obtain ⟨front, back, htext, hrange⟩ := hslice
  rw [ofRange?, hfile] at hd
  cases hd
  refine ⟨file, front, back, hfile, rfl, htext, hrange, ?_, ?_⟩
  · have hfront : file.text.toList = front ++ (shown.toList ++ back) := by
      rw [htext, List.append_assoc]
    simpa [Lines.positions, hrange] using Lines.position_byteLength hfront
  · simpa [Lines.positions, hrange] using Lines.position_byteLength htext

/-- The definition is the keyword of a function without a name. -/
def IsUnnamed (table : Table) (d : Definition) : Prop :=
  d.Shows table "function" ∧
    ∃ file, table.files[d.file]? = some file ∧ IsUnnamedFunction file.text d.range

theorem shows_of_shows {d : Definition} (h : table.Shows word place)
    (hd : ofRange? table word place.1 place.2 = some d) :
    d.Shows table word ∨ word = "fallback" ∧ d.IsUnnamed table := by
  obtain ⟨file, hfile, hstands⟩ := h
  rcases hstands with ⟨t, ht, hname⟩ | ⟨hname, hunnamed⟩
  · obtain ⟨htext, hrange⟩ := Name.mk.inj hname
    have hslice := isSlice_of_mem_significant ht
    rw [← htext, ← hrange] at hslice
    exact Or.inl (shows_of_isSlice hfile hslice hd)
  · refine Or.inr ⟨hname, ?_, file, ?_⟩
    · obtain ⟨before, keyword, paren, after, htokens, hkind, -, hrange⟩ := hunnamed
      have hkeyword : keyword ∈ significant file.text := by simp [htokens]
      have hslice := isSlice_of_mem_significant hkeyword
      rw [Token.text_of_keyword hkeyword hkind, ← hrange] at hslice
      exact shows_of_isSlice hfile hslice hd
    · rw [ofRange?, hfile] at hd
      cases hd
      exact ⟨hfile, hunnamed⟩

/-- Outside of import literals every definition is named by the word under the cursor and shows
that word, unless it is a function without a name to which `fallback` leads. -/
theorem shows_word_of_mem_at? (rules : ImportRules) (path : Path) (text : String) (p : Position)
    (d : Definition)
    (hlink : ∀ offset, Lines.offset? text p = some offset →
      linkAt? (.load rules path text) offset = none)
    (hd : d ∈ at? (.load rules path text) p) :
    ∃ line word, Lines.line? text p.line = some line ∧ Word.at? line p.column = some word ∧
      d.name = word.text ∧ (d.Shows (.load rules path text) word.text ∨
        word.text = "fallback" ∧ d.IsUnnamed (.load rules path text)) := by
  have hdocument : (Table.load rules path text).document? = some ⟨0, path, text⟩ := by
    obtain ⟨more, hfiles⟩ := Table.exists_files_load rules path text
    rw [Table.document?, hfiles, List.head?_cons]
  obtain ⟨line, offset, word, hline, hword, place, hplace, hrange⟩ :=
    exists_place_of_mem_at? hdocument hlink hd
  have hname : d.name = word.text := by
    obtain ⟨source, -, rfl⟩ := Option.map_eq_some_iff.mp hrange
    rfl
  exact ⟨line, word, hline, hword, hname,
    shows_of_shows (name_of_mem_placesOf (Table.everyName_load rules path text) hplace) hrange⟩

def lampRules : ImportRules :=
  ⟨⟨"/p"⟩, ⟨"/p/lib"⟩, "src", [],
    .memory ⟨[(⟨"/p/Mode.sol"⟩, "// off and on\n\nenum Mode \x7b Off, On \x7d\n")]⟩⟩

def lamp : String :=
  "import './Mode.sol';\nstruct Lamp \x7b Mode mode; \x7d"

def lampMode : Definition := ⟨1, ⟨"/p/Mode.sol"⟩, ⟨20, 24⟩, ⟨2, 5⟩, ⟨2, 9⟩, "Mode"⟩

theorem shows_word_of_lamp :
    ∃ d ∈ at? (.load lampRules ⟨"/p/Lamp.sol"⟩ lamp) ⟨1, 16⟩,
      d = ⟨1, ⟨"/p/Mode.sol"⟩, ⟨20, 24⟩, ⟨2, 5⟩, ⟨2, 9⟩, "Mode"⟩ ∧
        ∃ line word, Lines.line? lamp 1 = some line ∧ Word.at? line 16 = some word ∧
          d.name = word.text ∧ (d.Shows (.load lampRules ⟨"/p/Lamp.sol"⟩ lamp) word.text ∨
            word.text = "fallback" ∧ d.IsUnnamed (.load lampRules ⟨"/p/Lamp.sol"⟩ lamp)) := by
  have hd : lampMode ∈ at? (.load lampRules ⟨"/p/Lamp.sol"⟩ lamp) ⟨1, 16⟩ := by decide +kernel
  have hoffset : Lines.offset? lamp ⟨1, 16⟩ = some 37 := by decide +kernel
  have hlink : linkAt? (.load lampRules ⟨"/p/Lamp.sol"⟩ lamp) 37 = none := by decide +kernel
  refine ⟨lampMode, hd, rfl,
    shows_word_of_mem_at? lampRules ⟨"/p/Lamp.sol"⟩ lamp ⟨1, 16⟩ lampMode ?_ hd⟩
  intro offset h
  rw [hoffset] at h
  cases h
  exact hlink

end Definition

end SolidityCompass
