import SolidityCompass.Editor.Completion
import SolidityCompass.Proofs.Definitions

/-!
# Completions and definitions of members agree

Completion looks backwards from the cursor for identifier characters and a dot, while definitions
look for a word, in a wider class of characters, around the cursor. Where an identifier behind a dot
ends at the cursor, both find the same dot and hence the same chain: the definitions are those of
the suggested members that have the name.
-/

namespace SolidityCompass

namespace Word

theorem bounds?_eq_none {cs : List Char} {column : Nat}
    (h : ∀ c ∈ (cs.drop column).head?, isWordChar c = false) : bounds? cs column = none := by
  rw [List.head?_drop] at h
  cases hget : cs[column]? with
  | none => simp [bounds?, hget]
  | some c => simp [bounds?, hget, h c hget]

/-- The word around its own last character. -/
theorem bounds?_of_last {front init back : List Char} {stop last : Char}
    (hstop : isWordChar stop = false) (hinit : ∀ c ∈ init, isWordChar c = true)
    (hlast : isWordChar last = true) (hback : ∀ c ∈ back.head?, isWordChar c = false) :
    bounds? (front ++ stop :: (init ++ last :: back)) (front.length + 1 + init.length) =
      some (front.length + 1, front.length + 1 + init.length + 1) := by
  have hsplit : front ++ stop :: (init ++ last :: back) =
      (front ++ stop :: init) ++ last :: back := by simp
  have hlength : front.length + 1 + init.length = (front ++ stop :: init).length := by
    rw [List.length_append, List.length_cons]
    omega
  have hget : ((front ++ stop :: init) ++ last :: back)[(front ++ stop :: init).length]? =
      some last := by
    rw [List.getElem?_append_right le_rfl]
    simp
  have hbefore : ((front ++ stop :: init).reverse.takeWhile isWordChar).length = init.length := by
    rw [List.reverse_append, List.reverse_cons, List.append_assoc,
      List.takeWhile_append_of_pos (by simpa using hinit)]
    simp [hstop]
  have hafter : (last :: back).takeWhile isWordChar = [last] := by
    cases back with
    | nil => simp [hlast]
    | cons c cs => simp [hlast, hback c rfl]
  rw [hsplit, hlength, bounds?, hget, List.take_left, List.drop_left, hbefore, hafter, ← hlength]
  simp [hlast]

/-- An identifier ends at the column, behind a dot that does not begin the line, and no word
character follows it. -/
def IsMember (line : String) (dot column : Nat) (word : String) : Prop :=
  ∃ front back, line.toList = front ++ '.' :: (word.toList ++ back) ∧ dot = front.length ∧
    column = dot + 1 + word.toList.length ∧ 0 < dot ∧ word ≠ "" ∧
    (∀ c ∈ word.toList, isIdentPart c = true) ∧ ∀ c ∈ back.head?, isWordChar c = false

variable {line word : String} {dot column : Nat}

/-- The column cuts the line behind the identifier. -/
theorem take_and_drop_column {front back : List Char}
    (hline : line.toList = front ++ '.' :: (word.toList ++ back))
    (hcolumn : column = front.length + 1 + word.toList.length) :
    line.toList.take column = front ++ '.' :: word.toList ∧ line.toList.drop column = back := by
  have hsplit : line.toList = (front ++ '.' :: word.toList) ++ back := by simp [hline]
  have hlength : (front ++ '.' :: word.toList).length = column := by
    rw [List.length_append, List.length_cons]
    omega
  rw [hsplit]
  exact ⟨List.take_left' hlength, List.drop_left' hlength⟩

/-- Looking backwards, the identifier is passed over and the dot is found. -/
theorem IsMember.dot?_eq (h : IsMember line dot column word) : dot? line column = some dot := by
  obtain ⟨front, back, hline, rfl, hcolumn, hpos, -, hword, -⟩ := h
  have hdrop : (backwards line column).dropWhile isIdentPart = '.' :: front.reverse := by
    rw [backwards, (take_and_drop_column hline hcolumn).1, List.reverse_append,
      List.reverse_cons, List.append_assoc, List.dropWhile_append_of_pos (by simpa using hword)]
    rfl
  rw [dot?, hdrop]
  cases hfront : front.reverse with
  | nil => simp [List.reverse_eq_nil_iff.mp hfront] at hpos
  | cons c cs =>
    have hlength : (c :: cs).length = front.length := by rw [← hfront, List.length_reverse]
    rw [← hlength]
    rfl

/-- Looking around, the identifier is the word that ends at the column. -/
theorem IsMember.at?_eq (h : IsMember line dot column word) :
    at? line column = some ⟨word, dot + 1, column⟩ := by
  obtain ⟨front, back, hline, rfl, hcolumn, -, hne, hword, hback⟩ := h
  obtain ⟨init, last, hlast⟩ : ∃ init last, word.toList = init ++ [last] :=
    ⟨_, _, (List.dropLast_concat_getLast (by simpa using hne)).symm⟩
  have hchars : ∀ c ∈ init ++ [last], isWordChar c = true :=
    fun c hc => isWordChar_of_isIdentPart (hword c (hlast ▸ hc))
  have hhere : bounds? line.toList column = none :=
    bounds?_eq_none (by rwa [(take_and_drop_column hline hcolumn).2])
  have hbefore : bounds? line.toList (column - 1) = some (front.length + 1, column) := by
    have hline' : line.toList = front ++ '.' :: (init ++ last :: back) := by simp [hline, hlast]
    have hprevious : column - 1 = front.length + 1 + init.length := by simp [hcolumn, hlast]
    have hcolumn' : column = front.length + 1 + init.length + 1 := by omega
    rw [hprevious, hline', bounds?_of_last (by decide +kernel)
      (fun c hc => hchars c (List.mem_append_left _ hc)) (hchars last (by simp)) hback, ← hcolumn']
  have htext : (line.toList.drop (front.length + 1)).take (column - (front.length + 1)) =
      word.toList := by
    have hsplit : line.toList = (front ++ ['.']) ++ (word.toList ++ back) := by simp [hline]
    rw [hsplit, List.drop_left' (by simp), List.take_left' (by omega)]
  have hpositive : column ≠ 0 := by omega
  simp only [at?, hhere, hbefore, htext, if_neg hpositive, Option.none_or, Option.map_some,
    String.ofList_toList]

theorem IsMember.getElem?_dot (h : IsMember line dot column word) :
    line.toList[dot]? = some '.' := by
  obtain ⟨front, back, hline, rfl, -⟩ := h
  rw [hline, List.getElem?_append_right le_rfl, Nat.sub_self]
  rfl

end Word

theorem Lines.exists_offset? {text line : String} {p : Position}
    (h : line? text p.line = some line) : ∃ offset, offset? text p = some offset := by
  obtain ⟨cs, hcs, -⟩ := Option.map_eq_some_iff.mp h
  exact ⟨_, by rw [offset?, hcs, Option.map_some]⟩

namespace Definition

variable {table : Table}

/-- Nothing is lost on the way from places to definitions if their files are in the table. -/
theorem map_filterMap_ofRange? {word : String} {places : List (Nat × ByteRange)}
    (h : ∀ place ∈ places, ∃ file, table.files[place.1]? = some file) :
    (places.filterMap fun place => ofRange? table word place.1 place.2).map
      (fun d => (d.file, d.range)) = places := by
  induction places with
  | nil => rfl
  | cons place places ih =>
    obtain ⟨file, hfile⟩ := h place List.mem_cons_self
    have hrest := ih fun other hother => h other (List.mem_cons_of_mem _ hother)
    have hrange : ofRange? table word place.1 place.2 = some ⟨place.1, file.path, place.2,
        (Lines.positions file.text place.2).1, (Lines.positions file.text place.2).2, word⟩ := by
      rw [ofRange?, hfile, Option.map_some]
    simp only [List.filterMap_cons, hrange, List.map_cons, hrest]

theorem placesOf_eq_memberLocations {offset dot column : Nat} {line word : String}
    (h : Word.IsMember line dot column word) :
    placesOf table offset line ⟨word, dot + 1, column⟩ =
      memberLocations table offset line dot word := by
  simp [placesOf, h.getElem?_dot]

end Definition

/-- Where an identifier behind a dot ends at the cursor, the suggestions are the members of the
chain before the dot, and outside of import literals the definitions are the places of those
members that have the name of the identifier. -/
theorem member_suggestions_and_definitions (table : Table) (document : SourceFile) (p : Position)
    (line word : String) (dot : Nat) (hdocument : table.document? = some document)
    (hline : Lines.line? document.text p.line = some line)
    (hword : Word.IsMember line dot p.column word) :
    Trigger.before line p.column = .member dot ∧
      ∃ offset, Lines.offset? document.text p = some offset ∧
        Completion.suggestions table p =
          ((Viewpoint.ofOffset table offset).membersOf (Chain.ending line dot)).map
            Suggestion.ofMember ∧
        (Definition.linkAt? table offset = none →
          (Definition.at? table p).map (fun d => (d.file, d.range)) =
            (((Viewpoint.ofOffset table offset).membersOf (Chain.ending line dot)).filter
              fun m => m.name = word).filterMap MemberRef.location?) := by
  have htrigger : Trigger.before line p.column = .member dot := by
    rw [Trigger.before, hword.dot?_eq]
  obtain ⟨offset, hoffset⟩ := Lines.exists_offset? hline
  refine ⟨htrigger, offset, hoffset, ?_, fun hlink => ?_⟩
  · simp only [Completion.suggestions, hdocument, hline, hoffset, htrigger, Completion.afterDot]
  · rw [Definition.at?_eq_filterMap_placesOf hdocument hline hoffset hlink hword.at?_eq,
      Definition.placesOf_eq_memberLocations hword, Definition.map_filterMap_ofRange?]
    · rfl
    · intro place hplace
      exact Definition.name_of_mem_memberLocations table.everyName_inFile hplace

def switch : String :=
  "enum Mode \x7b Off, On \x7d\nMode.On"

theorem member_suggestions_and_definitions_of_switch :
    let table := Table.load default ⟨"/p/Switch.sol"⟩ switch
    Word.IsMember "Mode.On" 4 7 "On" ∧ Trigger.before "Mode.On" 7 = .member 4 ∧
      ∃ offset, Lines.offset? switch ⟨1, 7⟩ = some offset ∧
        Completion.suggestions table ⟨1, 7⟩ =
          ((Viewpoint.ofOffset table offset).membersOf (Chain.ending "Mode.On" 4)).map
            Suggestion.ofMember ∧
        (Definition.at? table ⟨1, 7⟩).map (fun d => (d.file, d.range)) =
          (((Viewpoint.ofOffset table offset).membersOf (Chain.ending "Mode.On" 4)).filter
            fun m => m.name = "On").filterMap MemberRef.location? ∧
        (Definition.at? table ⟨1, 7⟩).map (fun d => (d.file, d.range)) = [(0, ⟨17, 19⟩)] := by
  intro table
  have hword : Word.IsMember "Mode.On" 4 7 "On" := by
    have hchars : "On".toList.all isIdentPart = true := by decide
    refine ⟨"Mode".toList, [], rfl, rfl, rfl, by decide, by decide, List.all_eq_true.mp hchars, ?_⟩
    intro c hc
    cases hc
  have hline : Lines.line? switch 1 = some "Mode.On" := by decide +kernel
  have hdocument : table.document? = some ⟨0, ⟨"/p/Switch.sol"⟩, switch⟩ := by decide +kernel
  have hlinks : table.links = [] := by decide +kernel
  have hfound : (Definition.at? table ⟨1, 7⟩).map (fun d => (d.file, d.range)) =
      [(0, ⟨17, 19⟩)] := by decide +kernel
  obtain ⟨htrigger, offset, hoffset, hsuggestions, hdefinitions⟩ :=
    member_suggestions_and_definitions table ⟨0, ⟨"/p/Switch.sol"⟩, switch⟩ ⟨1, 7⟩
      "Mode.On" "On" 4 hdocument hline hword
  have hlink : Definition.linkAt? table offset = none := by simp [Definition.linkAt?, hlinks]
  exact ⟨hword, htrigger, offset, hoffset, hsuggestions, hdefinitions hlink, hfound⟩

end SolidityCompass
