import SolidityCompass.Proofs.SpelledCursors

/-!
# The grammar of types

`TypeUpTo words t v` says that the words are a type `t` which the word `v` behind them does not go
on with, array brackets aside. The reader of types reads exactly these words: what it reads is
derived by the grammar, and what the grammar derives it reads, whatever stands behind `v`. Of the
word behind a type only a few ever matter, so a type that was read once is read again before any
other word.
-/

namespace SolidityCompass

open Spelling

inductive Segments : List Spelling → List String → Prop
  | nil : Segments [] []
  | cons {point name : Spelling} {words : List Spelling} {names : List String}
    (hpoint : point.kind = .dot) (hname : name.kind = .ident) (hmore : Segments words names) :
    Segments (point :: name :: words) (name.text :: names)

/-- What is left of a group in which `inner` more groups of its shape are open, up to and with the
bracket that closes it. Brackets of other shapes are words like any other. -/
inductive GroupEnd (shape : Bracket) : Nat → List Spelling → Prop
  | close {w : Spelling} (h : w.kind = .closes shape) : GroupEnd shape 0 [w]
  | closeInner {w : Spelling} {words : List Spelling} {inner : Nat} (h : w.kind = .closes shape)
    (hmore : GroupEnd shape inner words) : GroupEnd shape (inner + 1) (w :: words)
  | openInner {w : Spelling} {words : List Spelling} {inner : Nat} (h : w.kind = .opens shape)
    (hmore : GroupEnd shape (inner + 1) words) : GroupEnd shape inner (w :: words)
  | other {w : Spelling} {words : List Spelling} {inner : Nat} (hopen : w.kind ≠ .opens shape)
    (hclose : w.kind ≠ .closes shape) (hmore : GroupEnd shape inner words) :
    GroupEnd shape inner (w :: words)

def IsGroup (words : List Spelling) : Prop :=
  ∃ shape w body, words = w :: body ∧ w.kind = .opens shape ∧ GroupEnd shape 0 body

def NameBefore (kind : Kind) (first : Spelling) (words : List Spelling) : Prop :=
  (words = [first] ∧ first.kind = kind) ∨
    ∃ w, words = [first, w] ∧ first.kind.isName = true ∧ w.kind = kind

theorem NameBefore.exists_tail {kind : Kind} {first : Spelling} {words : List Spelling}
    (h : NameBefore kind first words) : ∃ tail, words = first :: tail := by
  rcases h with ⟨rfl, -⟩ | ⟨w, rfl, -⟩
  · exact ⟨[], rfl⟩
  · exact ⟨[w], rfl⟩

/-- A name and what it stands before differ from any other kind of word. -/
theorem NameBefore.kind_ne {kind other : Kind} {first : Spelling} {words : List Spelling}
    (h : NameBefore kind first words) (hkind : kind ≠ other) (hother : other.isName = false) :
    first.kind ≠ other := by
  rcases h with ⟨-, hfirst⟩ | ⟨w, -, hfirst, -⟩
  · rwa [hfirst]
  · rintro rfl
    rw [hfirst] at hother
    cases hother

def functionAttributes : List String := ["external", "internal", "pure", "view", "payable"]

def lengthOf (words : List Spelling) : Option String :=
  if words.isEmpty then none else some (String.join (words.map Spelling.text))

/-- The words are a type, and the word behind them does not go on with it but for array brackets. -/
inductive TypeUpTo : List Spelling → TypeName → Spelling → Prop
  | path {first v : Spelling} {words : List Spelling} {names : List String}
    (hfirst : first.kind.isName = true) (hmore : Segments words names) (hdot : v.kind ≠ .dot)
    (hpayable : ".".intercalate (first.text :: names) = "address" → ¬ v.IsWord ["payable"]) :
    TypeUpTo (first :: words) (.named (".".intercalate (first.text :: names))) v
  | payable {first w v : Spelling} {words : List Spelling} {names : List String}
    (hfirst : first.kind.isName = true) (hmore : Segments words names)
    (haddress : ".".intercalate (first.text :: names) = "address") (hw : w.IsWord ["payable"]) :
    TypeUpTo (first :: (words ++ [w])) (.named "address payable") v
  | mapping {keyword paren k u v : Spelling} {key keyEnd value valueEnd : List Spelling}
    {keyType valueType : TypeName} (hkeyword : keyword.kind = .keyword .mappingKw)
    (hparen : paren.kind = .opens .paren) (hkey : TypeUpTo key keyType k)
    (hkeyEnd : NameBefore .fatArrow k keyEnd) (hvalue : TypeUpTo value valueType u)
    (hvalueEnd : NameBefore (.closes .paren) u valueEnd) :
    TypeUpTo (keyword :: paren :: (key ++ (keyEnd ++ (value ++ valueEnd))))
      (.mapping keyType valueType) v
  | function {keyword v : Spelling} {group attributes : List Spelling}
    (hkeyword : keyword.kind = .keyword .functionKw) (hgroup : IsGroup group)
    (hattributes : ∀ w ∈ attributes, w.IsWord functionAttributes)
    (hreturns : v.kind ≠ .keyword .returnsKw) (hv : ¬ v.IsWord functionAttributes) :
    TypeUpTo (keyword :: (group ++ attributes)) .function v
  | functionReturns {keyword returns v : Spelling} {group attributes results : List Spelling}
    (hkeyword : keyword.kind = .keyword .functionKw) (hgroup : IsGroup group)
    (hattributes : ∀ w ∈ attributes, w.IsWord functionAttributes)
    (hreturns : returns.kind = .keyword .returnsKw) (hresults : IsGroup results) :
    TypeUpTo (keyword :: (group ++ (attributes ++ returns :: results))) .function v
  | array {square close v : Spelling} {words length : List Spelling} {element : TypeName}
    (helement : TypeUpTo words element square) (hsquare : square.kind = .opens .square)
    (hlength : ∀ w ∈ length, Cursor.inArrayLength w.kind = true)
    (hclose : close.kind = .closes .square) :
    TypeUpTo (words ++ square :: (length ++ [close])) (.array element (lengthOf length)) v

def Cursor.EndsBase (v : Spelling) : Prop :=
  v.kind ≠ .dot ∧ v.kind ≠ .keyword .returnsKw ∧
    (v.kind = .ident → v.text ∉ ["external", "internal", "pure", "view", "payable"])

/-- Only the word behind a type decides whether the type goes on. -/
theorem TypeUpTo.of_endsBase {words : List Spelling} {t : TypeName} {v v' : Spelling}
    (h : TypeUpTo words t v) (hv : Cursor.EndsBase v') : TypeUpTo words t v' := by
  cases h with
  | path hfirst hmore =>
    refine .path hfirst hmore hv.1 fun _ hpayable => hv.2.2 hpayable.1 ?_
    rw [List.mem_singleton.mp hpayable.2]
    decide
  | payable hfirst hmore haddress hw => exact .payable hfirst hmore haddress hw
  | mapping hkeyword hparen hkey hkeyEnd hvalue hvalueEnd =>
    exact .mapping hkeyword hparen hkey hkeyEnd hvalue hvalueEnd
  | function hkeyword hgroup hattributes =>
    exact .function hkeyword hgroup hattributes hv.2.1 fun hw => hv.2.2 hw.1 hw.2
  | functionReturns hkeyword hgroup hattributes hreturns hresults =>
    exact .functionReturns hkeyword hgroup hattributes hreturns hresults
  | array helement hsquare hlength hclose => exact .array helement hsquare hlength hclose

/-- The first word of a type tells which kind of type it is. -/
theorem TypeUpTo.exists_first {words : List Spelling} {t : TypeName} {v : Spelling}
    (h : TypeUpTo words t v) :
    ∃ first tail, words = first :: tail ∧ (first.kind.isName = true ∨
      first.kind = .keyword .mappingKw ∨ first.kind = .keyword .functionKw) := by
  induction h with
  | path hfirst | payable hfirst => exact ⟨_, _, rfl, Or.inl hfirst⟩
  | mapping hkeyword => exact ⟨_, _, rfl, Or.inr (Or.inl hkeyword)⟩
  | function hkeyword | functionReturns hkeyword =>
    exact ⟨_, _, rfl, Or.inr (Or.inr hkeyword)⟩
  | array _ _ _ _ ih =>
    obtain ⟨first, tail, rfl, hfirst⟩ := ih
    exact ⟨first, _, rfl, hfirst⟩

theorem Segments.first_ne_paren {words after rest : List Spelling} {names : List String}
    {v second : Spelling} (h : Segments words names) (hv : v.kind ≠ .opens .paren)
    (hwords : words ++ v :: after = second :: rest) : second.kind ≠ .opens .paren := by
  cases h with
  | nil =>
    obtain ⟨rfl, -⟩ := List.cons.inj hwords
    exact hv
  | cons hpoint =>
    obtain ⟨rfl, -⟩ := List.cons.inj hwords
    simp [hpoint]

/-- No parenthesis follows a name in front of a type, so a type is no call. -/
theorem TypeUpTo.second_ne_paren {words after rest : List Spelling} {t : TypeName}
    {v first second : Spelling} (h : TypeUpTo words t v) (hv : v.kind ≠ .opens .paren)
    (hwords : words ++ v :: after = first :: second :: rest) (hfirst : first.kind.isName = true) :
    second.kind ≠ .opens .paren := by
  induction h generalizing after rest with
  | path _ hmore => exact hmore.first_ne_paren hv (List.cons.inj hwords).2
  | payable _ hmore _ hw =>
    rw [List.cons_append, List.append_assoc, List.singleton_append] at hwords
    exact hmore.first_ne_paren (by simp [hw.1]) (List.cons.inj hwords).2
  | mapping hkeyword | function hkeyword | functionReturns hkeyword =>
    obtain ⟨rfl, -⟩ := List.cons.inj hwords
    rw [hkeyword] at hfirst
    cases hfirst
  | array _ hsquare _ _ ih =>
    rw [List.append_assoc, List.cons_append] at hwords
    exact ih (by simp [hsquare]) hwords

namespace Cursor

variable {c d e : Cursor} {v : Spelling} {words after : List Spelling} {t : TypeName}

/-! ## What the grammar derives is read -/

section complete

theorem length_segments {names : List String} (h : Segments words names) :
    words.length = 2 * names.length := by
  induction h with
  | nil => rfl
  | cons _ _ _ ih =>
    simp only [List.length_cons, ih]
    omega

theorem segments_of_words {names : List String} {ts : List Token} (h : Segments words names)
    (hts : ts.map Token.spelling = words ++ v :: after) (hv : v.kind ≠ .dot) :
    segments ts = names := by
  induction h generalizing ts with
  | nil =>
    obtain ⟨t, ts, rfl, rfl, -⟩ := List.map_eq_cons_iff.mp hts
    have hk : t.kind ≠ .dot := hv
    cases ts with
    | nil => rfl
    | cons u us => simp [segments, hk]
  | cons hpoint hname _ ih =>
    obtain ⟨t, tail, rfl, rfl, htail⟩ := List.map_eq_cons_iff.mp hts
    obtain ⟨u, us, rfl, rfl, hus⟩ := List.map_eq_cons_iff.mp htail
    have ht : t.kind = .dot := hpoint
    have hu : u.kind = .ident := hname
    simp [segments, ht, hu, ih hus, Token.spelling]

theorem path?_of_words {first : Spelling} {names : List String} (hfirst : first.kind.isName = true)
    (hmore : Segments words names) (h : c.spelled = first :: (words ++ v :: after))
    (hv : v.kind ≠ .dot) :
    ∃ d, c.path? = some (".".intercalate (first.text :: names), d) ∧ d.spelled = v :: after := by
  obtain ⟨name, hname, htext⟩ := name?_of_isName h hfirst
  have hrest := spelled_advance h
  have hsegments : segments c.advance.rest = names := segments_of_words hmore hrest hv
  refine ⟨c.advance.skip (2 * names.length), ?_, ?_⟩
  · simp only [path?, hname, Option.map_some, htext, hsegments]
  · rw [spelled_skip, hrest, ← length_segments hmore, List.drop_left]

theorem groupLength_of_words {shape : Bracket} {inner : Nat} {ts : List Token}
    (h : GroupEnd shape inner words) (hts : ts.map Token.spelling = words ++ after) :
    groupLength shape inner ts = (words.length, true) := by
  induction h generalizing ts with
  | close hw =>
    obtain ⟨t, ts, rfl, rfl, -⟩ := List.map_eq_cons_iff.mp hts
    have ht : t.kind = .closes shape := hw
    simp [groupLength, ht]
  | closeInner hw _ ih =>
    obtain ⟨t, us, rfl, rfl, hus⟩ := List.map_eq_cons_iff.mp hts
    have ht : t.kind = .closes shape := hw
    simp [groupLength, ht, ih hus]
  | openInner hw _ ih =>
    obtain ⟨t, us, rfl, rfl, hus⟩ := List.map_eq_cons_iff.mp hts
    have ht : t.kind = .opens shape := hw
    simp [groupLength, ht, ih hus]
  | other hopen hclose _ ih =>
    obtain ⟨t, us, rfl, rfl, hus⟩ := List.map_eq_cons_iff.mp hts
    have ho : t.kind ≠ .opens shape := hopen
    have hc : t.kind ≠ .closes shape := hclose
    simp [groupLength, ho, hc, ih hus]

theorem skipGroup_of_words (h : IsGroup words) (hc : c.spelled = words ++ after) :
    ∃ d, c.skipGroup = (true, d) ∧ d.spelled = after := by
  obtain ⟨shape, w, body, rfl, hw, hbody⟩ := h
  have htail : c.rest.tail.map Token.spelling = body ++ after := by
    rw [← rest_advance]
    exact spelled_advance hc
  refine ⟨c.skip (body.length + 1), ?_, ?_⟩
  · simp only [skipGroup, kind?_of_spelled hc, hw, groupLength_of_words hbody htail]
  · rw [spelled_skip, hc, List.cons_append, List.drop_succ_cons, List.drop_left]

theorem eat?_skipNameBefore {kind : Kind} {w : Spelling} (h : NameBefore kind w words)
    (hkind : kind.isName = false) (hc : c.spelled = words ++ after) :
    ∃ d, (c.skipNameBefore kind).eat? kind = some d ∧ d.spelled = after := by
  rcases h with ⟨rfl, hw⟩ | ⟨u, rfl, hw, hu⟩
  · have hskip := skipNameBefore_of_spelled kind hc (by rw [hw, hkind])
    exact ⟨c.advance, by rw [hskip, eat?_of_spelled hc hw], spelled_advance hc⟩
  · have hrest := spelled_advance hc
    have hskip : c.skipNameBefore kind = c.advance := by
      simp [skipNameBefore, seesAny, kind?_of_spelled hc, hw, kindAfter?_of_spelled hc, hu]
    exact ⟨c.advance.advance, by rw [hskip, eat?_of_spelled hrest hu], spelled_advance hrest⟩

theorem spelled_skipWords (names : List String) (c : Cursor) :
    (c.skipWords names).spelled =
      c.spelled.dropWhile fun w => w.kind = .ident && names.contains w.text := by
  have hrest (ts : List Token) :
      ts.drop (ts.takeWhile fun t => t.kind = .ident && names.contains t.text).length =
        ts.dropWhile fun t => t.kind = .ident && names.contains t.text := by
    calc ts.drop _ = (ts.takeWhile _ ++ ts.dropWhile _).drop _ := by
          rw [List.takeWhile_append_dropWhile]
      _ = _ := List.drop_left
  rw [skipWords, spelled, spelled, rest_skip, hrest, List.dropWhile_map]
  rfl

theorem skipWords_of_words {names : List String} (hwords : ∀ w ∈ words, w.IsWord names)
    (hv : ¬ v.IsWord names) (hc : c.spelled = words ++ v :: after) :
    (c.skipWords names).spelled = v :: after := by
  rw [spelled_skipWords, hc,
    List.dropWhile_append_of_pos fun w hw => isWord_iff.mpr (hwords w hw), List.dropWhile_cons,
    if_neg (fun h => hv (isWord_iff.mp h))]

theorem functionType_of_words {group attributes : List Spelling} {keyword w : Spelling}
    (hgroup : IsGroup group) (hattributes : ∀ w ∈ attributes, w.IsWord functionAttributes)
    (hw : ¬ w.IsWord functionAttributes)
    (hc : c.spelled = keyword :: (group ++ (attributes ++ w :: after))) :
    ∃ d : Cursor, d.spelled = w :: after ∧
      c.functionType = match d.eat? (.keyword .returnsKw) with
        | none => (some .function, d)
        | some e => (if e.skipGroup.1 then some .function else none, e.skipGroup.2) := by
  obtain ⟨d, hd, hrest⟩ := skipGroup_of_words hgroup (spelled_advance hc)
  refine ⟨d.skipWords functionAttributes, skipWords_of_words hattributes hw hrest, ?_⟩
  unfold functionType
  rw [hd]
  rfl

theorem typeName_of_isName {w : Spelling} (h : c.spelled = w :: words)
    (hw : w.kind.isName = true) (hnamed : c.namedType? = some (t, d)) :
    c.typeName = arraySuffixes t d := by
  have hk := kind?_of_spelled h
  refine typeName_of_named ?_ ?_ hnamed
  · intro hm
    rw [Option.some.inj (hk.symm.trans hm)] at hw
    cases hw
  · intro hf
    rw [Option.some.inj (hk.symm.trans hf)] at hw
    cases hw

theorem arraySuffixes_of_ne (element : TypeName) (h : c.spelled = v :: after)
    (hv : v.kind ≠ .opens .square) : arraySuffixes element c = (some element, c) := by
  rw [arraySuffixes, dif_neg]
  rw [not_sees_of_spelled h hv]
  simp

theorem withSuffixes_some (T : TypeName) (d : Cursor) :
    withSuffixes (some T, d) = arraySuffixes T d := rfl

theorem arrayLength_of_words {close : Spelling} {length : List Spelling}
    (hlength : ∀ w ∈ length, inArrayLength w.kind = true) (hclose : close.kind = .closes .square)
    (hc : c.spelled = length ++ close :: after) : c.arrayLength.map Token.spelling = length := by
  have hmap : c.arrayLength.map Token.spelling =
      c.spelled.takeWhile fun w => inArrayLength w.kind := by
    rw [spelled, List.takeWhile_map]
    rfl
  rw [hmap, hc, List.takeWhile_append_of_pos hlength, List.takeWhile_cons, hclose]
  exact List.append_nil length

theorem lengthText_eq (ts : List Token) : lengthText ts = lengthOf (ts.map Token.spelling) := by
  simp [lengthText, lengthOf, Function.comp_def, Token.spelling]

theorem arraySuffixes_of_words {square close : Spelling} {length : List Spelling}
    (element : TypeName) (hsquare : square.kind = .opens .square)
    (hlength : ∀ w ∈ length, inArrayLength w.kind = true) (hclose : close.kind = .closes .square)
    (hc : c.spelled = square :: (length ++ close :: after)) :
    ∃ d, arraySuffixes element c = arraySuffixes (.array element (lengthOf length)) d ∧
      d.spelled = after := by
  have hinner := spelled_advance hc
  have hwords := arrayLength_of_words hlength hclose hinner
  have hend : (c.advance.skip c.advance.arrayLength.length).spelled = close :: after := by
    have hlen := congrArg List.length hwords
    rw [List.length_map] at hlen
    rw [spelled_skip, hinner, hlen, List.drop_left]
  refine ⟨(c.advance.skip c.advance.arrayLength.length).advance, ?_, spelled_advance hend⟩
  rw [arraySuffixes_eq, if_pos (sees_of_spelled hc hsquare), eat?_of_spelled hend hclose,
    lengthText_eq, hwords]

theorem mappingType_of_words {keyword paren k u : Spelling}
    {key keyEnd value valueEnd : List Spelling} {keyType valueType : TypeName}
    (hparen : paren.kind = .opens .paren) (hkeyEnd : NameBefore .fatArrow k keyEnd)
    (hvalueEnd : NameBefore (.closes .paren) u valueEnd)
    (hkey : ∀ {c : Cursor} {after : List Spelling}, c.spelled = key ++ k :: after →
      ∃ d, c.typeName = arraySuffixes keyType d ∧ d.spelled = k :: after)
    (hvalue : ∀ {c : Cursor} {after : List Spelling}, c.spelled = value ++ u :: after →
      ∃ d, c.typeName = arraySuffixes valueType d ∧ d.spelled = u :: after)
    (hc : c.spelled =
      keyword :: paren :: (key ++ (keyEnd ++ (value ++ (valueEnd ++ after))))) :
    ∃ d, c.mappingType = (some (.mapping keyType valueType), d) ∧ d.spelled = after := by
  have hrest := spelled_advance hc
  have hopen := eat?_of_spelled hrest hparen
  obtain ⟨keyTail, hkeyTail⟩ := hkeyEnd.exists_tail
  obtain ⟨valueTail, hvalueTail⟩ := hvalueEnd.exists_tail
  obtain ⟨d, hd, hdrest⟩ := @hkey c.advance.advance _ (by
    rw [spelled_advance hrest, hkeyTail, List.cons_append])
  rw [arraySuffixes_of_ne keyType hdrest (hkeyEnd.kind_ne (by decide) rfl)] at hd
  obtain ⟨c₂, harrow, hc₂⟩ := eat?_skipNameBefore hkeyEnd rfl (by
    rw [hdrest, hkeyTail, List.cons_append])
  obtain ⟨e, he, herest⟩ := @hvalue c₂ _ (by rw [hc₂, hvalueTail, List.cons_append])
  rw [arraySuffixes_of_ne valueType herest (hvalueEnd.kind_ne (by decide) rfl)] at he
  obtain ⟨f, hclose, hf⟩ := eat?_skipNameBefore hvalueEnd rfl (by
    rw [herest, hvalueTail, List.cons_append])
  refine ⟨f, ?_, hf⟩
  unfold mappingType
  simp only [hopen, hd, harrow, he, hclose]

/-- What the grammar derives is read as it says, up to array brackets. -/
theorem typeName_of_typeUpTo (h : TypeUpTo words t v) (hc : c.spelled = words ++ v :: after) :
    ∃ d, c.typeName = arraySuffixes t d ∧ d.spelled = v :: after := by
  induction h generalizing c after with
  | path hfirst hmore hdot hpayable =>
    obtain ⟨d, hd, hrest⟩ := path?_of_words hfirst hmore hc hdot
    refine ⟨d, typeName_of_isName hc hfirst ?_, hrest⟩
    rw [namedType?, hd, Option.map_some]
    dsimp only
    rw [if_neg]
    intro h
    simp only [Bool.and_eq_true, decide_eq_true_eq, seesWord_of_spelled hrest] at h
    exact hpayable h.1 h.2
  | @payable first w v words names hfirst hmore haddress hw =>
    replace hc : c.spelled = first :: (words ++ w :: v :: after) := by simpa using hc
    obtain ⟨d, hd, hrest⟩ := path?_of_words hfirst hmore hc (by simp [hw.1])
    refine ⟨d.advance, typeName_of_isName hc hfirst ?_, spelled_advance hrest⟩
    rw [namedType?, hd, Option.map_some, haddress]
    dsimp only
    rw [if_pos]
    simp [(seesWord_of_spelled hrest).mpr hw]
  | mapping hkeyword hparen hkey hkeyEnd hvalue hvalueEnd ihkey ihvalue =>
    simp only [List.cons_append, List.append_assoc] at hc
    obtain ⟨d, hd, hrest⟩ := mappingType_of_words hparen hkeyEnd hvalueEnd ihkey ihvalue hc
    refine ⟨d, ?_, hrest⟩
    rw [typeName_of_mapping (hkeyword ▸ kind?_of_spelled hc), hd, withSuffixes_some]
  | function hkeyword hgroup hattributes hreturns hv =>
    simp only [List.cons_append, List.append_assoc] at hc
    obtain ⟨d, hrest, hd⟩ := functionType_of_words hgroup hattributes hv hc
    rw [eat?_eq_none_of_spelled hrest hreturns] at hd
    refine ⟨d, ?_, hrest⟩
    rw [typeName_of_function (hkeyword ▸ kind?_of_spelled hc), hd, withSuffixes_some]
  | functionReturns hkeyword hgroup hattributes hreturns hresults =>
    simp only [List.cons_append, List.append_assoc] at hc
    obtain ⟨d, hrest, hd⟩ := functionType_of_words hgroup hattributes
      (fun hw => absurd (hreturns.symm.trans hw.1) (by simp)) hc
    obtain ⟨e, he, herest⟩ := skipGroup_of_words hresults (spelled_advance hrest)
    simp only [eat?_of_spelled hrest hreturns, he, if_true] at hd
    refine ⟨e, ?_, herest⟩
    rw [typeName_of_function (hkeyword ▸ kind?_of_spelled hc), hd, withSuffixes_some]
  | array helement hsquare hlength hclose ih =>
    rw [List.append_assoc, List.cons_append, List.append_assoc, List.singleton_append] at hc
    obtain ⟨d, hd, hrest⟩ := ih hc
    obtain ⟨e, he, herest⟩ := arraySuffixes_of_words _ hsquare hlength hclose hrest
    exact ⟨e, hd.trans he, herest⟩

end complete

/-! ## What is read is derived -/

section sound

theorem exists_segments (ts : List Token) :
    ∃ words rest, ts.map Token.spelling = words ++ rest ∧ Segments words (segments ts) := by
  induction ts using segments.induct with
  | case1 point word ts h ih =>
    obtain ⟨words, rest, hts, hwords⟩ := ih
    rw [segments, if_pos h]
    simp only [Bool.and_eq_true, decide_eq_true_eq] at h
    refine ⟨point.spelling :: word.spelling :: words, rest, ?_, .cons h.1 h.2 hwords⟩
    rw [List.map_cons, List.map_cons, hts]
    rfl
  | case2 point word ts h =>
    rw [segments, if_neg h]
    exact ⟨[], _, rfl, .nil⟩
  | case3 ts h =>
    rw [segments]
    · exact ⟨[], _, rfl, .nil⟩
    · exact h

theorem exists_words_of_path? {path : String} (h : c.path? = some (path, d)) :
    ∃ first words names, c.spelled = first :: (words ++ d.spelled) ∧
      first.kind.isName = true ∧ Segments words names ∧
      path = ".".intercalate (first.text :: names) := by
  obtain ⟨⟨name, e⟩, hname, hd⟩ := Option.map_eq_some_iff.mp h
  obtain ⟨t, ts, hr, ht, rfl, rfl⟩ := name?_eq_some hname
  obtain ⟨rfl, rfl⟩ := Prod.mk.inj hd
  have hc : c.spelled = t.spelling :: ts.map Token.spelling := by rw [spelled, hr, List.map_cons]
  have htail : c.advance.rest = ts := by rw [rest_advance, hr, List.tail_cons]
  obtain ⟨words, rest, hts, hwords⟩ := exists_segments ts
  refine ⟨t.spelling, words, segments ts, ?_, ht, hwords, ?_⟩
  · rw [spelled_skip, spelled_advance hc, htail, ← length_segments hwords, hts, List.drop_left,
      ← hts, hc]
  · rw [htail]
    rfl

def ReadsBase (c d : Cursor) (t : TypeName) : Prop :=
  ∃ words, c.spelled = words ++ d.spelled ∧
    ∀ v after, d.spelled = v :: after → v.kind ≠ .dot → TypeUpTo words t v

theorem readsBase_of_namedType? (h : c.namedType? = some (t, d)) : c.ReadsBase d t := by
  obtain ⟨⟨path, e⟩, he, hd⟩ := Option.map_eq_some_iff.mp h
  obtain ⟨first, words, names, hc, hfirst, hwords, rfl⟩ := exists_words_of_path? he
  dsimp only at hd
  split at hd
  next hpayable =>
    obtain ⟨rfl, rfl⟩ := Prod.mk.inj hd
    simp only [Bool.and_eq_true, decide_eq_true_eq] at hpayable
    cases hrest : e.spelled with
    | nil =>
      have hnone : e.rest = [] := List.map_eq_nil_iff.mp hrest
      simp [seesWord, hnone] at hpayable
    | cons w rest =>
      rw [hrest] at hc
      refine ⟨first :: (words ++ [w]), ?_, fun v after _ _ => ?_⟩
      · rw [hc, spelled_advance hrest]
        simp
      · exact .payable hfirst hwords hpayable.1 ((seesWord_of_spelled hrest).mp hpayable.2)
  next hpayable =>
    obtain ⟨rfl, rfl⟩ := Prod.mk.inj hd
    refine ⟨first :: words, hc, fun v after hrest hv => ?_⟩
    refine .path hfirst hwords hv fun haddress hw => hpayable ?_
    simp [haddress, (seesWord_of_spelled hrest).mpr hw]

theorem exists_groupEnd {shape : Bracket} {inner : Nat} {ts : List Token}
    (h : (groupLength shape inner ts).2 = true) :
    ∃ words, ts.map Token.spelling =
        words ++ (ts.drop (groupLength shape inner ts).1).map Token.spelling ∧
      GroupEnd shape inner words := by
  fun_induction groupLength shape inner ts with
  | case1 => simp at h
  | case2 inner t ts hopen tail ih =>
    obtain ⟨words, hts, hwords⟩ := ih h
    exact ⟨t.spelling :: words, congrArg (t.spelling :: ·) hts, .openInner hopen hwords⟩
  | case3 t ts _ hclose => exact ⟨[t.spelling], rfl, .close hclose⟩
  | case4 t ts _ hclose inner tail ih =>
    obtain ⟨words, hts, hwords⟩ := ih h
    exact ⟨t.spelling :: words, congrArg (t.spelling :: ·) hts, .closeInner hclose hwords⟩
  | case5 inner t ts hopen hclose tail ih =>
    obtain ⟨words, hts, hwords⟩ := ih h
    exact ⟨t.spelling :: words, congrArg (t.spelling :: ·) hts, .other hopen hclose hwords⟩

theorem exists_group_of_skipGroup (h : c.skipGroup = (true, d)) :
    ∃ words, c.spelled = words ++ d.spelled ∧ IsGroup words := by
  unfold skipGroup at h
  split at h
  next shape hk =>
    obtain ⟨hclosed, rfl⟩ := Prod.mk.inj h
    obtain ⟨t, ts, hr, ht⟩ := rest_of_kind? hk
    obtain ⟨words, hts, hwords⟩ := exists_groupEnd hclosed
    rw [hr, List.tail_cons] at hts
    refine ⟨t.spelling :: words, ?_, shape, t.spelling, words, rfl, ht, hwords⟩
    rw [spelled_skip, spelled, hr, List.map_cons, List.drop_succ_cons, List.cons_append,
      List.tail_cons, ← List.map_drop, ← hts]
  next => cases h

theorem exists_words_of_skipWords (names : List String) (c : Cursor) :
    ∃ words, c.spelled = words ++ (c.skipWords names).spelled ∧
      (∀ w ∈ words, w.IsWord names) ∧
      ∀ v after, (c.skipWords names).spelled = v :: after → ¬ v.IsWord names := by
  have hskip := spelled_skipWords names c
  refine ⟨c.spelled.takeWhile fun w => w.kind = .ident && names.contains w.text, ?_, ?_, ?_⟩
  · rw [hskip, List.takeWhile_append_dropWhile]
  · intro w hw
    have hword := List.mem_takeWhile_imp hw
    exact isWord_iff.mp hword
  · intro v after hv hword
    have hhead := List.head?_dropWhile_not
      (fun w : Spelling => w.kind = .ident && names.contains w.text) c.spelled
    rw [← hskip, hv, List.head?_cons] at hhead
    exact absurd (isWord_iff.mpr hword) (by simp only [hhead, Bool.false_eq_true, not_false_iff])

theorem readsBase_of_functionType (hk : c.kind? = some (.keyword .functionKw))
    (h : c.functionType = (some t, d)) : c.ReadsBase d t := by
  obtain ⟨keyword, hc, hkeyword⟩ := spelled_of_kind? hk
  unfold functionType at h
  split at h
  next => cases h
  next e hgroup =>
    obtain ⟨group, hcgroup, hgroup⟩ := exists_group_of_skipGroup hgroup
    obtain ⟨attributes, he, hattributes, hstop⟩ := exists_words_of_skipWords functionAttributes e
    dsimp only at h
    split at h
    next hreturns =>
      cases h
      refine ⟨keyword :: (group ++ attributes), ?_, fun v after hd _ => ?_⟩
      · rw [hc, hcgroup, he, List.cons_append, List.append_assoc]
        rfl
      · refine .function hkeyword hgroup hattributes (fun hv => ?_) (hstop v after hd)
        exact absurd (hreturns.symm.trans (eat?_of_spelled hd hv)) (by simp)
    next f hreturns =>
      obtain ⟨returns, hf, hreturns⟩ := exists_word_of_eat? hreturns
      split at h
      next hclosed =>
        cases h
        obtain ⟨results, hresults, hgroup'⟩ := exists_group_of_skipGroup (Prod.ext hclosed rfl)
        refine ⟨keyword :: (group ++ (attributes ++ returns :: results)), ?_, fun v after _ _ => ?_⟩
        · have hrest : e.spelled = attributes ++ returns :: f.spelled := by rwa [← hf]
          rw [hc, hcgroup, hrest, hresults]
          simp only [List.cons_append, List.append_assoc]
        · exact .functionReturns hkeyword hgroup hattributes hreturns hgroup'
      next => cases h

theorem exists_words_of_nameBefore {kind : Kind} (h : (c.skipNameBefore kind).eat? kind = some d) :
    ∃ w words, c.spelled = words ++ d.spelled ∧ NameBefore kind w words := by
  unfold skipNameBefore at h
  split at h
  next hname =>
    simp only [Bool.and_eq_true] at hname
    cases hk : c.kind? with
    | none => simp [seesAny, hk] at hname
    | some first =>
      obtain ⟨w, hc, hw⟩ := spelled_of_kind? hk
      obtain ⟨u, hrest, hu⟩ := exists_word_of_eat? h
      have hfirst : first.isName = true := by simpa [seesAny, hk] using hname.1
      exact ⟨w, [w, u], by rw [hc, hrest]; rfl, Or.inr ⟨u, rfl, hw ▸ hfirst, hu⟩⟩
  next =>
    obtain ⟨w, hc, hw⟩ := exists_word_of_eat? h
    exact ⟨w, [w], hc, Or.inl ⟨rfl, hw⟩⟩

theorem spelled_arrayLength (c : Cursor) :
    c.spelled = c.arrayLength.map Token.spelling ++ (c.skip c.arrayLength.length).spelled := by
  have hinit : c.arrayLength <+: c.rest := List.takeWhile_prefix _
  rw [spelled, spelled, rest_skip, ← List.map_append, List.prefix_iff_eq_append.mp hinit]

theorem exists_words_of_arraySuffixes {element : TypeName}
    (h : arraySuffixes element c = (some t, d)) (hd : d.spelled = v :: after) (hv : v.kind ≠ .dot) :
    ∀ words, (∀ w rest, c.spelled = w :: rest → w.kind ≠ .dot → TypeUpTo words element w) →
      ∃ more, c.spelled = more ++ v :: after ∧ TypeUpTo (words ++ more) t v := by
  fun_induction arraySuffixes element c with
  | case1 element c hopen length e hclose _ ih =>
    intro words helement
    obtain ⟨square, hc, hsquare⟩ := spelled_of_kind? (kind?_of_sees hopen)
    obtain ⟨close, hend, hclose⟩ := exists_word_of_eat? hclose
    have hlength : ∀ w ∈ length.map Token.spelling, inArrayLength w.kind = true := by
      rw [List.forall_mem_map]
      intro t ht
      exact List.mem_takeWhile_imp (p := fun t : Token => inArrayLength t.kind) ht
    have harray (w : Spelling) :
        TypeUpTo (words ++ square :: (length.map Token.spelling ++ [close]))
          (.array element (lengthText length)) w := by
      rw [lengthText_eq]
      exact .array (helement square _ hc (by simp [hsquare])) hsquare hlength hclose
    obtain ⟨more, he, htype⟩ := ih h _ (fun w _ _ _ => harray w)
    refine ⟨square :: (length.map Token.spelling ++ [close]) ++ more, ?_, ?_⟩
    · rw [hc, spelled_arrayLength, hend, he]
      simp [length]
    · rwa [List.append_assoc] at htype
  | case2 => cases h
  | case3 element c =>
    intro words helement
    cases h
    refine ⟨[], hd, ?_⟩
    rw [List.append_nil]
    exact helement v after hd hv

/-- A type in a mapping is followed by an optional name and the word that ends its part. -/
theorem exists_words_of_part {kind : Kind} (hkind : kind ≠ .dot)
    (htype : ∀ v after, d.spelled = v :: after → v.kind ≠ .dot →
      ∃ words, c.spelled = words ++ v :: after ∧ TypeUpTo words t v)
    (h : (d.skipNameBefore kind).eat? kind = some e) :
    ∃ k words last, c.spelled = words ++ (last ++ e.spelled) ∧ TypeUpTo words t k ∧
      NameBefore kind k last := by
  obtain ⟨k, last, hd, hlast⟩ := exists_words_of_nameBefore h
  obtain ⟨tail, rfl⟩ := hlast.exists_tail
  obtain ⟨words, hc, hwords⟩ := htype k _ hd (hlast.kind_ne hkind rfl)
  exact ⟨k, words, k :: tail, hc, hwords, hlast⟩

theorem readsBase_of_mappingType (hk : c.kind? = some (.keyword .mappingKw))
    (htype : ∀ {c' d' : Cursor} {t' : TypeName}, c.Passes c' → c'.typeName = (some t', d') →
      ∀ v after, d'.spelled = v :: after → v.kind ≠ .dot →
        ∃ words, c'.spelled = words ++ v :: after ∧ TypeUpTo words t' v)
    (h : c.mappingType = (some t, d)) : c.ReadsBase d t := by
  obtain ⟨keyword, hc, hkeyword⟩ := spelled_of_kind? hk
  obtain ⟨c₁, keyType, d₁, c₂, valueType, d₂, rfl, hpass₁, hpass₂, hopen, hkey, harrow, hvalue,
    hclose⟩ := mappingType_cases h
  obtain ⟨paren, hc₁, hparen⟩ := exists_word_of_eat? hopen
  obtain ⟨k, key, keyEnd, hckey, hkeyType, hkeyEnd⟩ :=
    exists_words_of_part (by decide) (htype hpass₁ hkey) harrow
  obtain ⟨u, value, valueEnd, hcvalue, hvalueType, hvalueEnd⟩ :=
    exists_words_of_part (by decide) (htype hpass₂ hvalue) hclose
  refine ⟨keyword :: paren :: (key ++ (keyEnd ++ (value ++ valueEnd))), ?_,
    fun _ _ _ _ => .mapping hkeyword hparen hkeyType hkeyEnd hvalueType hvalueEnd⟩
  rw [hc, hc₁, hckey, hcvalue]
  simp only [List.cons_append, List.append_assoc]

/-- What is read as a type is derived by the grammar. -/
theorem exists_typeUpTo (h : c.typeName = (some t, d)) (hd : d.spelled = v :: after)
    (hv : v.kind ≠ .dot) :
    ∃ words, c.spelled = words ++ v :: after ∧ TypeUpTo words t v := by
  induction hn : c.rest.length using Nat.strong_induction_on generalizing c d t v after with
  | _ n ih =>
    subst hn
    -- A type is a base, read without places of its own, and array brackets.
    obtain ⟨base, e, hsuffixes, hbase⟩ := typeName_cases h
    have hreads : c.ReadsBase e base := by
      rcases hbase with ⟨hm, hmapping⟩ | ⟨hf, hfunction⟩ | hnamed
      · refine readsBase_of_mappingType hm ?_ hmapping
        intro c' d' t' hpass htype v after hd' hv'
        exact ih _ hpass.length_lt htype hd' hv' rfl
      · exact readsBase_of_functionType hf hfunction
      · exact readsBase_of_namedType? hnamed
    obtain ⟨words, hc, hwords⟩ := hreads
    obtain ⟨more, hmore, htype⟩ := exists_words_of_arraySuffixes hsuffixes hd hv words hwords
    exact ⟨words ++ more, by rw [hc, hmore, List.append_assoc], htype⟩

end sound

end Cursor

end SolidityCompass
