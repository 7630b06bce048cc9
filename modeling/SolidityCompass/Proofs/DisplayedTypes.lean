import SolidityCompass.Proofs.LongestMatch
import SolidityCompass.Proofs.ReadTypes
import SolidityCompass.Proofs.TypeGrammar
import SolidityCompass.Symbol.TypeRef

/-!
# Displayed types are unambiguous

A type is displayed as one line of text, in which mappings may nest to any depth. The text shows
all that is known of the type, because no name that is read as a type has a bracket or an arrow in
it and the only blank stands in `address payable`: from the start of a displayed type on, the text
tells where the type ends. So types that are displayed alike are equal, and bound functions, which
compare mappings by their text, compare them by all their parts.
-/

namespace SolidityCompass

/-! ## What a displayed type is made of -/

namespace TypeRef

def isPathChar (c : Char) : Bool :=
  isIdentPart c || c = '.'

def IsTypeWord (name : String) : Prop :=
  (∀ c ∈ name.toList, isPathChar c = true) ∨ name = "address payable"

/-- All names in the type are words that name a type. -/
def Legible : TypeRef → Prop
  | named name _ => IsTypeWord name
  | mapping key value _ => key.Legible ∧ value.Legible

theorem legible_withArray {type : TypeRef} {isArray : Bool} :
    (type.withArray isArray).Legible ↔ type.Legible := by
  cases type <;> rfl

/-- What stands behind a type in the text of another one, or in no text: nothing, the end of a
mapping or its arrow. -/
inductive EndsType : List Char → Prop
  | nil : EndsType []
  | close (cs : List Char) : EndsType (')' :: cs)
  | arrow (cs : List Char) : EndsType (' ' :: '=' :: cs)

inductive EndsWord : List Char → Prop
  | brackets (cs : List Char) : EndsWord ('[' :: cs)
  | type {cs : List Char} (h : EndsType cs) : EndsWord cs

def brackets (isArray : Bool) : List Char :=
  if isArray then ['[', ']'] else []

variable {v w s u : List Char} {a b : TypeRef}

theorem display_named_append (name : String) (isArray : Bool) (s : List Char) :
    (named name isArray).display.toList ++ s = name.toList ++ (brackets isArray ++ s) := by
  cases isArray <;> simp [display, brackets]

theorem display_mapping_append (key value : TypeRef) (isArray : Bool) (s : List Char) :
    (mapping key value isArray).display.toList ++ s =
      "mapping".toList ++ '(' :: (key.display.toList ++ ' ' :: '=' :: '>' :: ' ' ::
        (value.display.toList ++ ')' :: (brackets isArray ++ s))) := by
  cases isArray <;> simp [display, brackets]

theorem EndsWord.head? (h : EndsWord s) : ∀ c ∈ s.head?, isPathChar c = false := by
  cases h with
  | brackets cs => simp [isPathChar, isIdentPart, isIdentStart]
  | type h => cases h <;> simp [isPathChar, isIdentPart, isIdentStart]

theorem endsWord_brackets (isArray : Bool) (h : EndsType s) : EndsWord (brackets isArray ++ s) := by
  cases isArray with
  | true => exact .brackets _
  | false => exact .type h

theorem brackets_append_inj {x y : Bool} (hs : EndsType s) (hu : EndsType u)
    (h : brackets x ++ s = brackets y ++ u) : x = y ∧ s = u := by
  cases x with
  | true =>
    cases y with
    | true => exact ⟨rfl, List.append_cancel_left h⟩
    | false =>
      have hopen : u = '[' :: ']' :: s := h.symm
      rw [hopen] at hu
      cases hu
  | false =>
    cases y with
    | true =>
      have hopen : s = '[' :: ']' :: u := h
      rw [hopen] at hs
      cases hs
    | false => exact ⟨rfl, h⟩

/-! ## The text tells where a type ends -/

/-- Two words end where the first character that neither can hold stands. -/
theorem eq_of_append_eq {p : Char → Bool} (hv : ∀ c ∈ v, p c = true) (hw : ∀ c ∈ w, p c = true)
    (hs : ∀ c ∈ s.head?, p c = false) (hu : ∀ c ∈ u.head?, p c = false) (h : v ++ s = w ++ u) :
    v = w ∧ s = u := by
  induction v generalizing w with
  | nil =>
    cases w with
    | nil => exact ⟨rfl, h⟩
    | cons d w =>
      have hd := hs d (by simpa using congrArg List.head? h)
      simp [hw d List.mem_cons_self] at hd
  | cons c v ih =>
    cases w with
    | nil =>
      have hc := hu c (by simpa using congrArg List.head? h.symm)
      simp [hv c List.mem_cons_self] at hc
    | cons d w =>
      obtain ⟨rfl, htail⟩ := List.cons.inj h
      obtain ⟨rfl, hrest⟩ := ih (fun c hc => hv c (List.mem_cons_of_mem _ hc))
        (fun c hc => hw c (List.mem_cons_of_mem _ hc)) htail
      exact ⟨rfl, hrest⟩

/-- A path does not go on with `payable`. -/
theorem path_ne_payable {name : String} (hname : ∀ c ∈ name.toList, isPathChar c = true)
    (hs : EndsWord s) : name.toList ++ s ≠ "address payable".toList ++ u := by
  intro h
  have haddress : ∀ c ∈ "address".toList, isPathChar c = true :=
    List.all_eq_true.mp (by decide)
  have hblank : ∀ c ∈ (" payable".toList ++ u).head?, isPathChar c = false := by
    simp [isPathChar, isIdentPart, isIdentStart]
  obtain ⟨-, hrest⟩ := eq_of_append_eq hname haddress hs.head? hblank h
  cases hs with
  | brackets cs => simp at hrest
  | type hs => cases hs <;> simp at hrest

theorem word_append_inj {name other : String} (hname : IsTypeWord name) (hother : IsTypeWord other)
    (hs : EndsWord s) (hu : EndsWord u) (h : name.toList ++ s = other.toList ++ u) :
    name = other ∧ s = u := by
  rcases hname with hname | rfl
  · rcases hother with hother | rfl
    · obtain ⟨hwords, hrest⟩ := eq_of_append_eq hname hother hs.head? hu.head? h
      exact ⟨String.toList_inj.mp hwords, hrest⟩
    · exact absurd h (path_ne_payable hname hs)
  · rcases hother with hother | rfl
    · exact absurd h.symm (path_ne_payable hother hu)
    · exact ⟨rfl, List.append_cancel_left h⟩

/-- No name goes on like a mapping. -/
theorem word_ne_mapping {name : String} (hname : IsTypeWord name) (hs : EndsWord s) :
    name.toList ++ s ≠ "mapping".toList ++ '(' :: u := by
  intro h
  rcases hname with hname | rfl
  · have hmapping : ∀ c ∈ "mapping".toList, isPathChar c = true :=
      List.all_eq_true.mp (by decide)
    have hparen : ∀ c ∈ ('(' :: u).head?, isPathChar c = false := by
      simp [isPathChar, isIdentPart, isIdentStart]
    obtain ⟨-, rfl⟩ := eq_of_append_eq hname hmapping hs.head? hparen h
    cases hs with
    | type hs => cases hs
  · simp at h

/-- A displayed type is known from any text that goes on behind it, and so is where it ends. -/
theorem display_append_inj (ha : a.Legible) (hb : b.Legible) (hs : EndsType s) (hu : EndsType u)
    (h : a.display.toList ++ s = b.display.toList ++ u) : a = b ∧ s = u := by
  induction a generalizing b s u with
  | named name isArray =>
    rw [display_named_append] at h
    have hrest := endsWord_brackets isArray hs
    cases b with
    | named other isArray' =>
      rw [display_named_append] at h
      obtain ⟨rfl, hsame⟩ := word_append_inj ha hb hrest (endsWord_brackets isArray' hu) h
      obtain ⟨rfl, rfl⟩ := brackets_append_inj hs hu hsame
      exact ⟨rfl, rfl⟩
    | mapping key value isArray' =>
      rw [display_mapping_append] at h
      exact absurd h (word_ne_mapping ha hrest)
  | mapping key value isArray ihKey ihValue =>
    rw [display_mapping_append] at h
    cases b with
    | named other isArray' =>
      rw [display_named_append] at h
      exact absurd h.symm (word_ne_mapping hb (endsWord_brackets isArray' hu))
    | mapping key' value' isArray' =>
      rw [display_mapping_append] at h
      have hinside := List.tail_eq_of_cons_eq (List.append_cancel_left h)
      obtain ⟨rfl, harrow⟩ := ihKey ha.1 hb.1 (.arrow _) (.arrow _) hinside
      simp only [List.cons.injEq, true_and] at harrow
      obtain ⟨rfl, hclose⟩ := ihValue ha.2 hb.2 (.close _) (.close _) harrow
      obtain ⟨rfl, rfl⟩ := brackets_append_inj hs hu (List.tail_eq_of_cons_eq hclose)
      exact ⟨rfl, rfl⟩

theorem display_inj (ha : a.Legible) (hb : b.Legible) : a.display = b.display ↔ a = b := by
  constructor
  · intro h
    have htext : a.display.toList ++ [] = b.display.toList ++ [] := by rw [h]
    exact (display_append_inj ha hb .nil .nil htext).1
  · rintro rfl
    rfl

/-! ## Types that agree -/

theorem name_eq_iff (ha : a.Legible) (hb : b.Legible) :
    a.name = b.name ↔ a.withArray false = b.withArray false :=
  display_inj (legible_withArray.mpr ha) (legible_withArray.mpr hb)

theorem eq_of_withArray (harray : a.isArray = b.isArray)
    (h : a.withArray false = b.withArray false) : a = b := by
  cases a <;> cases b <;> simp_all [withArray, isArray]

theorem isAddressName_eq_true {name : String} :
    isAddressName name = true ↔ name = "address" ∨ name = "address payable" := by
  simp [isAddressName]

/-- A mapping is not named like an address. -/
theorem isMapping_of_isAddressName (h : isAddressName a.name = true) : a.isMapping = false := by
  cases a with
  | named name isArray => rfl
  | mapping key value isArray =>
    have hname := display_mapping_append key value false []
    rw [List.append_nil] at hname
    rw [isAddressName_eq_true, ← String.toList_inj, ← String.toList_inj] at h
    rcases h with h | h <;> simp [name, withArray, hname] at h

theorem agrees_iff (ha : a.Legible) (hb : b.Legible) :
    a.agrees b = true ↔ a = b ∨
      (a.isMapping = false ∧ b.isMapping = false) ∧
        (isAddressName a.name = true ∧ isAddressName b.name = true) ∧ a.isArray = b.isArray := by
  simp only [agrees, Bool.and_eq_true, Bool.or_eq_true, decide_eq_true_eq, name_eq_iff ha hb]
  constructor
  · rintro ⟨⟨harray, -⟩, hname | hname⟩
    · exact Or.inl (eq_of_withArray harray hname)
    · exact Or.inr ⟨⟨isMapping_of_isAddressName hname.1, isMapping_of_isAddressName hname.2⟩, hname,
        harray⟩
  · rintro (rfl | ⟨⟨hmapping, hmapping'⟩, hname, harray⟩)
    · exact ⟨⟨rfl, rfl⟩, Or.inl rfl⟩
    · exact ⟨⟨harray, hmapping.trans hmapping'.symm⟩, Or.inr hname⟩

theorem agrees_equivalence : Equivalence fun a b : TypeRef => a.agrees b = true where
  refl a := by simp [agrees]
  symm {a b} h := by
    simp only [agrees, Bool.and_eq_true, Bool.or_eq_true, decide_eq_true_eq] at h ⊢
    exact ⟨⟨h.1.1.symm, h.1.2.symm⟩, h.2.imp Eq.symm And.symm⟩
  trans {a b c} hab hbc := by
    simp only [agrees, Bool.and_eq_true, Bool.or_eq_true, decide_eq_true_eq] at hab hbc ⊢
    refine ⟨⟨hab.1.1.trans hbc.1.1, hab.1.2.trans hbc.1.2⟩, ?_⟩
    rcases hab.2 with heq | hab
    · rw [heq]
      exact hbc.2
    · rcases hbc.2 with heq | hbc
      · rw [← heq]
        exact Or.inr hab
      · exact Or.inr ⟨hab.1, hbc.2⟩

end TypeRef

/-! ## What is read as a type is legible -/

section tokens

variable {text : String} {t : Token}

theorem Spells.isIdentPart_of_isName {kind : Kind} {c : Char} {v : List Char}
    (h : Spells kind c v) (hk : kind.isName = true) : ∀ d ∈ c :: v, isIdentPart d = true := by
  have hsymbols : ∀ symbol ∈ Lexeme.symbols, symbol.2.isName = false := by decide
  have hword (hc : isIdentStart c = true) (hv : ∀ d ∈ v, isIdentPart d = true) :
      ∀ d ∈ c :: v, isIdentPart d = true :=
    List.forall_mem_cons.mpr ⟨by simp [isIdentPart, hc], hv⟩
  cases h with
  | identifier hc hv => exact hword hc hv
  | keyword hspelled =>
    obtain ⟨hc, hv⟩ := keyword_spelling hspelled
    exact hword hc hv
  | symbol hmem =>
    have hname := hsymbols _ hmem
    rw [hk] at hname
    cases hname
  | _ => simp [Kind.isName, Kind.isContextual] at hk

/-- A token that may stand for a name is made of the characters of identifiers. -/
theorem Token.isIdentPart_of_isName (h : t ∈ significant text) (hk : t.kind.isName = true) :
    ∀ c ∈ t.text.toList, isIdentPart c = true := by
  obtain ⟨front, c, cs, -, rfl⟩ := exists_first_of_mem_tokensFrom (List.mem_filter.mp h).1
  have hchars : (Token.first (0 + byteLength front) c cs).text.toList =
      c :: cs.take (lexeme c cs).2 := String.toList_ofList
  have hkind : (lexeme c cs).1.isName = true := hk
  have hblock : (lexeme c cs).1 ≠ .blockComment := by
    intro hblock
    simp [hblock, Kind.isName, Kind.isContextual] at hkind
  have herror : (lexeme c cs).1 ≠ .error := by
    intro herror
    simp [herror, Kind.isName, Kind.isContextual] at hkind
  have hspells := spells_lexeme hblock herror
  rw [hchars]
  exact hspells.isIdentPart_of_isName hkind

end tokens

namespace TypeRef

theorem isPathChar_intercalate {names : List String}
    (h : ∀ name ∈ names, ∀ c ∈ name.toList, isIdentPart c = true) :
    ∀ c ∈ (".".intercalate names).toList, isPathChar c = true := by
  have hpart {name : String} (hname : ∀ c ∈ name.toList, isIdentPart c = true) :
      ∀ c ∈ name.toList, isPathChar c = true := fun c hc => by simp [isPathChar, hname c hc]
  induction names with
  | nil => simp
  | cons name names ih =>
    obtain ⟨hname, hnames⟩ := List.forall_mem_cons.mp h
    cases names with
    | nil => simpa using hpart hname
    | cons next names =>
      rw [String.intercalate_cons_cons, String.toList_append, String.toList_append]
      simp only [List.forall_mem_append]
      exact ⟨⟨hpart hname, List.all_eq_true.mp (by decide)⟩, ih hnames⟩

end TypeRef

namespace Cursor

open TypeRef

variable {text : String} {c d : Cursor} {t : TypeName}

theorem exists_of_mem_segments {ts : List Token} {name : String} (h : name ∈ segments ts) :
    ∃ t ∈ ts, t.kind = .ident ∧ name = t.text := by
  induction ts using segments.induct with
  | case1 point word ts hword ih =>
    rw [segments, if_pos hword] at h
    simp only [Bool.and_eq_true, decide_eq_true_eq] at hword
    rcases List.mem_cons.mp h with rfl | h
    · exact ⟨word, by simp, hword.2, rfl⟩
    · obtain ⟨t, ht, hfound⟩ := ih h
      exact ⟨t, by simp [ht], hfound⟩
  | case2 point word ts hword =>
    rw [segments, if_neg hword] at h
    cases h
  | case3 ts hshort =>
    rw [segments] at h
    · cases h
    · exact hshort

theorem In.isPathChar_of_path? (h : c.In text) {path : String} (hp : c.path? = some (path, d)) :
    ∀ ch ∈ path.toList, isPathChar ch = true := by
  obtain ⟨⟨name, e⟩, hname, hd⟩ := Option.map_eq_some_iff.mp hp
  obtain ⟨t, ts, hr, ht, rfl, rfl⟩ := name?_eq_some hname
  obtain ⟨rfl, rfl⟩ := Prod.mk.inj hd
  refine isPathChar_intercalate (List.forall_mem_cons.mpr ⟨?_, ?_⟩)
  · exact Token.isIdentPart_of_isName (h.mem_significant (by simp [hr])) ht
  · intro name hname
    obtain ⟨word, hword, hkind, rfl⟩ := exists_of_mem_segments hname
    exact Token.isIdentPart_of_isName (h.advance.mem_significant hword)
      (by simp [hkind, Kind.isName])

theorem In.legible_of_namedType? (h : c.In text) (ht : c.namedType? = some (t, d)) :
    (ofTypeName t).Legible := by
  obtain ⟨⟨path, e⟩, hpath, hd⟩ := Option.map_eq_some_iff.mp ht
  dsimp only at hd
  split at hd
  · cases hd
    exact Or.inr rfl
  · cases hd
    exact Or.inl (h.isPathChar_of_path? hpath)

theorem eq_function_of_functionType (h : c.functionType = (some t, d)) : t = .function := by
  unfold functionType at h
  split at h
  next => cases h
  next =>
    dsimp only at h
    split at h
    next =>
      cases h
      rfl
    next =>
      split at h
      · cases h
        rfl
      · cases h

theorem legible_of_arraySuffixes {element : TypeName} (helement : (ofTypeName element).Legible)
    (h : arraySuffixes element c = (some t, d)) : (ofTypeName t).Legible := by
  fun_induction arraySuffixes element c with
  | case1 element c _ length e _ _ ih => exact ih (legible_withArray.mpr helement) h
  | case2 => cases h
  | case3 element c _ =>
    cases h
    exact helement

theorem In.legible_of_typeName (h : c.In text) (ht : c.typeName = (some t, d)) :
    (ofTypeName t).Legible := by
  induction hn : c.rest.length using Nat.strong_induction_on generalizing c d t with
  | _ n ih =>
    subst hn
    obtain ⟨base, e, hsuffixes, hbase⟩ := typeName_cases ht
    refine legible_of_arraySuffixes ?_ hsuffixes
    rcases hbase with ⟨-, hmapping⟩ | ⟨-, hfunction⟩ | hnamed
    · obtain ⟨c₁, key, d₁, c₂, value, d₂, rfl, hpass₁, hpass₂, -, hkey, -, hvalue, -⟩ :=
        mappingType_cases hmapping
      exact ⟨ih _ hpass₁.length_lt (h.reaches hpass₁.reaches) hkey rfl,
        ih _ hpass₂.length_lt (h.reaches hpass₂.reaches) hvalue rfl⟩
    · obtain rfl := eq_function_of_functionType hfunction
      exact Or.inl (List.all_eq_true.mp (by decide))
    · exact h.legible_of_namedType? hnamed

end Cursor

theorem TypeName.ReadIn.legible {text : String} {t : TypeName} (h : t.ReadIn text) :
    (TypeRef.ofTypeName t).Legible := by
  obtain ⟨c, hin, ht⟩ := h
  exact hin.legible_of_typeName (Prod.ext ht rfl)

/-- Types that are read from texts are displayed alike only if they are the same. They agree if they
are the same or both addresses, payable or not, and both or none of them arrays, and to agree is an
equivalence. -/
theorem TypeRef.display_unambiguous {text text' : String} (s t : TypeName) (hs : s.ReadIn text)
    (ht : t.ReadIn text') :
    ((ofTypeName s).display = (ofTypeName t).display ↔ ofTypeName s = ofTypeName t) ∧
      ((ofTypeName s).agrees (ofTypeName t) = true ↔ ofTypeName s = ofTypeName t ∨
        ((ofTypeName s).isMapping = false ∧ (ofTypeName t).isMapping = false) ∧
          (isAddressName (ofTypeName s).name = true ∧ isAddressName (ofTypeName t).name = true) ∧
            (ofTypeName s).isArray = (ofTypeName t).isArray) ∧
      Equivalence fun a b : TypeRef => a.agrees b = true :=
  ⟨display_inj hs.legible ht.legible, agrees_iff hs.legible ht.legible, agrees_equivalence⟩

def addressBook : String :=
  "contract C \x7b address payable[3][] a; address[] b; " ++
    "mapping(L.S => mapping(address => address))[] c; \x7d"

def payableGrid : TypeName := .array (.array (.named "address payable") (some "3")) none

def addressList : TypeName := .array (.named "address") none

def mappingList : TypeName :=
  .array (.mapping (.named "L.S") (.mapping (.named "address") (.named "address"))) none

theorem TypeRef.display_unambiguous_of_addressBook :
    ∃ s t u : TypeName, s.ReadIn addressBook ∧ t.ReadIn addressBook ∧ u.ReadIn addressBook ∧
      (ofTypeName s).display = "address payable[]" ∧ (ofTypeName t).display = "address[]" ∧
      (ofTypeName u).display = "mapping(L.S => mapping(address => address))[]" ∧
      (ofTypeName s).agrees (ofTypeName t) = true ∧ (ofTypeName u).agrees (ofTypeName s) = false := by
  have hread : ∀ type ∈ [payableGrid, addressList, mappingList], type.ReadIn addressBook := by
    have hmem : ∀ type ∈ [payableGrid, addressList, mappingList],
        ∃ x ∈ (readOutline addressBook).outline.items, type ∈ x.types := by decide +kernel
    intro type htype
    obtain ⟨x, hx, hmem⟩ := hmem type htype
    exact readIn_outline hx hmem
  have hs := hread payableGrid (by simp)
  have ht := hread addressList (by simp)
  have hu := hread mappingList (by simp)
  refine ⟨payableGrid, addressList, mappingList, hs, ht, hu, rfl, rfl, rfl, ?_, ?_⟩
  · exact (display_unambiguous payableGrid addressList hs ht).2.1.mpr (Or.inr (by decide))
  · rw [Bool.eq_false_iff, Ne, (display_unambiguous mappingList payableGrid hu hs).2.1]
    decide

end SolidityCompass
