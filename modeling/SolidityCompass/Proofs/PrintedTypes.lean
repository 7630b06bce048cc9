import SolidityCompass.Proofs.Printing
import SolidityCompass.Proofs.TypeGrammar

/-!
# Reading printed types

The grammar of types derives the words of a canonical type before every word that cannot go on
with it, so a printed type is read back.
-/

namespace SolidityCompass

open Spelling

theorem pathWords_ne_nil (path : String) : pathWords path ≠ [] := by
  simp [pathWords]

theorem intercalate_pathWords (path : String) : ".".intercalate (pathWords path) = path := by
  apply String.toList_inj.mp
  rw [String.toList_intercalate, pathWords, List.map_map]
  have hid : String.toList ∘ String.ofList = id := by
    funext cs
    simp
  rw [hid, List.map_id]
  exact List.intercalate_splitOn '.'

theorem segments_dots (others : List String) :
    Segments (others.flatMap fun w => [dot, ident w]) others := by
  induction others with
  | nil => exact .nil
  | cons first others ih => exact .cons (show dot.kind = .dot from rfl) rfl ih

/-- A path is written as its first identifier and then dots and identifiers in turn. -/
theorem exists_dotted_eq (path : String) :
    ∃ first others,
      dotted (pathWords path) = ident first :: others.flatMap (fun w => [dot, ident w]) ∧
      path = ".".intercalate (first :: others) ∧ first ∈ pathWords path := by
  obtain ⟨first, others, hnames⟩ := List.exists_cons_of_ne_nil (pathWords_ne_nil path)
  refine ⟨first, others, by rw [hnames, dotted], ?_, by simp [hnames]⟩
  rw [← hnames, intercalate_pathWords]

theorem lengthOf_lengthWord (length : Option String) :
    lengthOf (length.toList.map TypeName.lengthWord) = length := by
  cases length with
  | none => rfl
  | some text =>
    have htext : (TypeName.lengthWord text).text = text := by
      unfold TypeName.lengthWord
      split <;> rfl
    simp [lengthOf, htext, String.join]

theorem inArrayLength_lengthWord (text : String) :
    Cursor.inArrayLength (TypeName.lengthWord text).kind = true := by
  unfold TypeName.lengthWord
  split <;> rfl

/-- The grammar derives the words of a type. -/
theorem typeUpTo_words {v : Spelling} (T : TypeName) (hT : T.Canonical) (hv : Cursor.EndsBase v) :
    TypeUpTo T.words T v := by
  induction T generalizing v with
  | named path =>
    rw [TypeName.words]
    split
    next hpath =>
      subst hpath
      exact .payable rfl .nil (by simp [ident]) ⟨rfl, by simp [ident]⟩
    next =>
      obtain ⟨first, others, hwords, hpath, -⟩ := exists_dotted_eq path
      rw [hwords, hpath]
      refine .path rfl (segments_dots others) hv.1 fun _ hw => ?_
      exact hv.2.2 hw.1 (by simp [List.mem_singleton.mp hw.2])
  | mapping key value ihkey ihvalue =>
    have hkey : TypeUpTo key.words key arrow := ihkey hT.1 (by simp [Cursor.EndsBase, arrow])
    have hvalue : TypeUpTo value.words value (closing .paren) :=
      ihvalue hT.2 (by simp [Cursor.EndsBase, closing])
    have harrow : NameBefore .fatArrow arrow [arrow] := Or.inl ⟨rfl, rfl⟩
    have hclose : NameBefore (.closes .paren) (closing .paren) [closing .paren] :=
      Or.inl ⟨rfl, rfl⟩
    exact .mapping rfl rfl hkey harrow hvalue hclose
  | array element length ih =>
    have helement : TypeUpTo element.words element (opening .square) :=
      ih hT.1 (by simp [Cursor.EndsBase, opening])
    have hlength : ∀ w ∈ length.toList.map TypeName.lengthWord,
        Cursor.inArrayLength w.kind = true := by
      rw [List.forall_mem_map]
      exact fun text _ => inArrayLength_lengthWord text
    have hclose : (closing .square).kind = .closes .square := rfl
    have harray := TypeUpTo.array (v := v) helement rfl hlength hclose
    rwa [lengthOf_lengthWord] at harray
  | function =>
    have hgroup : IsGroup [opening .paren, closing .paren] :=
      ⟨.paren, opening .paren, [closing .paren], rfl, rfl, .close rfl⟩
    have hattributes : ∀ w ∈ [], Spelling.IsWord functionAttributes w := by simp
    exact .function rfl hgroup hattributes hv.2.1 fun hw => hv.2.2 hw.1 hw.2

namespace Cursor

variable {c : Cursor} {v : Spelling} {after : List Spelling}

theorem path?_of_dotted {path : String}
    (h : c.spelled = dotted (pathWords path) ++ v :: after) (hv : v.kind ≠ .dot) :
    ∃ d, c.path? = some (path, d) ∧ d.spelled = v :: after := by
  obtain ⟨first, others, hwords, hpath, -⟩ := exists_dotted_eq path
  rw [hwords, List.cons_append] at h
  rw [hpath]
  exact path?_of_words rfl (segments_dots others) h hv

/-- A printed type is read back, up to a word that cannot go on with it. -/
theorem typeName_of_spelled {T : TypeName} (hT : T.Canonical)
    (h : c.spelled = T.words ++ v :: after) (hv : EndsBase v) (hsquare : v.kind ≠ .opens .square) :
    ∃ d, c.typeName = (some T, d) ∧ d.spelled = v :: after := by
  obtain ⟨d, hd, hrest⟩ := typeName_of_typeUpTo (typeUpTo_words T hT hv) h
  exact ⟨d, hd.trans (arraySuffixes_of_ne T hrest hsquare), hrest⟩

/-- The first word of a type tells which kind of type it is. -/
theorem exists_first_word {T : TypeName} (hT : T.Canonical) :
    ∃ w words, T.words = w :: words ∧
      ((∃ text, w = ident text ∧ text ∉ reservedWords) ∨ w = word .mappingKw ∨
        (w = word .functionKw ∧ T.StartsFunction)) := by
  induction T with
  | named path =>
    rw [TypeName.words]
    split
    next => exact ⟨_, _, rfl, Or.inl ⟨"address", rfl, by decide⟩⟩
    next hne =>
      have hpath : IsPath path := hT.resolve_left hne
      obtain ⟨first, others, hwords, -, hfirst⟩ := exists_dotted_eq path
      exact ⟨_, _, hwords, Or.inl ⟨first, rfl, (hpath first hfirst).2⟩⟩
  | mapping key value _ _ => exact ⟨_, _, rfl, Or.inr (Or.inl rfl)⟩
  | array element length ih =>
    obtain ⟨w, words, hwords, hw⟩ := ih hT.1
    rw [TypeName.words, hwords]
    exact ⟨w, _, rfl, hw⟩
  | function => exact ⟨_, _, rfl, Or.inr (Or.inr ⟨rfl, trivial⟩)⟩

theorem endsBase_of_not_reserved {text : String} (h : text ∉ reservedWords) :
    EndsBase (ident text) := by
  have hsubset : ∀ x ∈ ["external", "internal", "pure", "view", "payable"], x ∈ reservedWords := by
    decide
  exact ⟨by simp [ident], by simp [ident], fun _ hmem => h (hsubset text hmem)⟩

end Cursor

end SolidityCompass
