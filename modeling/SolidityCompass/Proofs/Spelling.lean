import Mathlib.Data.List.TakeWhile
import SolidityCompass.Proofs.TokenOrder

/-!
# Spellings

A spelling is a token without its place. Words written with one space between them are read back
by the lexer one by one, if each of them is a lexeme wherever a space or the end of the text
follows it. Keywords, identifiers, numbers, quoted paths and the punctuation of declarations are
such words.
-/

namespace SolidityCompass

structure Spelling where
  kind : Kind
  text : String
deriving Repr, DecidableEq, Inhabited

def Token.spelling (t : Token) : Spelling := ⟨t.kind, t.text⟩

def render (words : List Spelling) : String :=
  " ".intercalate (words.map Spelling.text)

def IsGap (rest : List Char) : Prop :=
  rest = [] ∨ ∃ cs, rest = ' ' :: cs

/-- The word is the lexeme at the head of a text that has a gap behind it. -/
structure Spelling.Lexes (w : Spelling) : Prop where
  significant : w.kind.isSignificant = true
  lexeme_eq : ∃ c cs, w.text.toList = c :: cs ∧
    ∀ rest, IsGap rest → lexeme c (cs ++ rest) = (w.kind, cs.length)

def spaced (words : List Spelling) : List Char :=
  words.flatMap fun w => ' ' :: w.text.toList

theorem isGap_spaced (words : List Spelling) : IsGap (spaced words) := by
  cases words with
  | nil => exact Or.inl rfl
  | cons w words => exact Or.inr ⟨w.text.toList ++ spaced words, by simp [spaced]⟩

theorem toList_render_cons (w : Spelling) (words : List Spelling) :
    (render (w :: words)).toList = w.text.toList ++ spaced words := by
  induction words generalizing w with
  | nil => simp [render, spaced]
  | cons v words ih =>
    have hrender : render (w :: v :: words) = w.text ++ " " ++ render (v :: words) := by
      simp [render, String.intercalate_cons_cons]
    rw [hrender, String.toList_append, ih]
    simp [spaced]

theorem tokensFrom_of_lexes {w : Spelling} (hw : w.Lexes) (start : Nat) {rest : List Char}
    (hrest : IsGap rest) :
    ∃ t, tokensFrom start (w.text.toList ++ rest) = t :: tokensFrom t.range.stop rest ∧
      t.spelling = w := by
  obtain ⟨c, cs, htext, hlex⟩ := hw.lexeme_eq
  have h := hlex rest hrest
  refine ⟨Token.first start c (cs ++ rest), ?_, ?_⟩
  · rw [htext, List.cons_append, tokensFrom, h]
    simp
  · rw [Token.first, Token.spelling, h]
    simp only [List.take_left]
    rw [← htext, String.ofList_toList]

theorem isSpace_eq_false_of_lexes {w : Spelling} (hw : w.Lexes) {c : Char} {cs : List Char}
    (h : w.text.toList = c :: cs) : Lexeme.isSpace c = false := by
  obtain ⟨c', cs', h', hlex⟩ := hw.lexeme_eq
  obtain ⟨rfl, rfl⟩ := List.cons.inj (h.symm.trans h')
  have hkind := congrArg Prod.fst (hlex [] (Or.inl rfl))
  cases hspace : Lexeme.isSpace c with
  | false => rfl
  | true =>
    have hsig := hw.significant
    simp only [lexeme, hspace, if_true] at hkind
    simp [← hkind, Kind.isSignificant, Kind.isTrivia] at hsig

/-- A space before a word is a token of its own. -/
theorem tokensFrom_space (start : Nat) {c : Char} (h : Lexeme.isSpace c = false)
    (cs : List Char) :
    ∃ t, tokensFrom start (' ' :: c :: cs) = t :: tokensFrom t.range.stop (c :: cs) ∧
      t.kind = .whitespace := by
  have hlex : lexeme ' ' (c :: cs) = (.whitespace, 0) := by
    simp [lexeme, Lexeme.run, h, show Lexeme.isSpace ' ' = true from rfl]
  refine ⟨Token.first start ' ' (c :: cs), ?_, by simp [Token.first, hlex]⟩
  rw [tokensFrom, hlex]
  simp

/-- The tokens that start at a byte are the words, with nothing else but whitespace between. -/
def ReadsAs (start : Nat) (cs : List Char) (words : List Spelling) : Prop :=
  ((tokensFrom start cs).filter fun t => t.kind.isSignificant).map Token.spelling = words ∧
    ∀ t ∈ tokensFrom start cs, t.kind ≠ .error

theorem readsAs_of_lexes {w : Spelling} (hw : w.Lexes) {rest : List Char} (hgap : IsGap rest)
    {words : List Spelling} (hrest : ∀ start, ReadsAs start rest words) (start : Nat) :
    ReadsAs start (w.text.toList ++ rest) (w :: words) := by
  obtain ⟨t, ht, hspell⟩ := tokensFrom_of_lexes hw start hgap
  obtain ⟨hwords, herror⟩ := hrest t.range.stop
  have hsig : t.kind.isSignificant = true := by
    have h := hw.significant
    rwa [← hspell] at h
  have hne : t.kind ≠ .error := by
    intro h
    simp [h, Kind.isSignificant] at hsig
  refine ⟨?_, fun u hu => ?_⟩
  · rw [ht, List.filter_cons, if_pos hsig, List.map_cons, hspell, hwords]
  · rw [ht] at hu
    rcases List.mem_cons.mp hu with rfl | hu
    · exact hne
    · exact herror u hu

theorem readsAs_spaced {words : List Spelling} (h : ∀ w ∈ words, w.Lexes) (start : Nat) :
    ReadsAs start (spaced words) words := by
  induction words generalizing start with
  | nil => simp [ReadsAs, spaced, tokensFrom]
  | cons w words ih =>
    have hw := h w (by simp)
    have hrest := readsAs_of_lexes hw (isGap_spaced words) (ih fun v hv => h v (by simp [hv]))
    obtain ⟨c, cs, htext, -⟩ := hw.lexeme_eq
    obtain ⟨t, ht, hspace⟩ := tokensFrom_space start (isSpace_eq_false_of_lexes hw htext)
      (cs ++ spaced words)
    have hsplit : spaced (w :: words) = ' ' :: c :: (cs ++ spaced words) := by
      simp [spaced, htext]
    obtain ⟨hwords, herror⟩ := hrest t.range.stop
    rw [htext, List.cons_append] at hwords herror
    refine ⟨?_, fun u hu => ?_⟩
    · rw [hsplit, ht, List.filter_cons_of_neg (by simp [hspace, Kind.isSignificant, Kind.isTrivia]),
        hwords]
    · rw [hsplit, ht] at hu
      rcases List.mem_cons.mp hu with rfl | hu
      · simp [hspace]
      · exact herror u hu

theorem readsAs_render {words : List Spelling} (h : ∀ w ∈ words, w.Lexes) (start : Nat) :
    ReadsAs start (render words).toList words := by
  cases words with
  | nil => simp [ReadsAs, render, tokensFrom]
  | cons w words =>
    rw [toList_render_cons]
    exact readsAs_of_lexes (h w (by simp)) (isGap_spaced words)
      (readsAs_spaced fun v hv => h v (by simp [hv])) start

section words

variable {c : Char} {cs rest : List Char}

theorem run_append_of_isGap {p : Char → Bool} (hp : p ' ' = false) (hrest : IsGap rest) :
    Lexeme.run p (cs ++ rest) = Lexeme.run p cs := by
  have hnil : rest.takeWhile p = [] := by
    rcases hrest with rfl | ⟨ds, rfl⟩
    · rfl
    · simp [hp]
  unfold Lexeme.run
  rw [List.takeWhile_append, hnil]
  split <;> simp_all

theorem isSpace_of_isIdentStart (h : isIdentStart c = true) : Lexeme.isSpace c = false := by
  cases hspace : Lexeme.isSpace c with
  | false => rfl
  | true =>
    simp only [Lexeme.isSpace, Bool.or_eq_true, decide_eq_true_eq] at hspace
    rcases hspace with (((rfl | rfl) | rfl) | rfl) | rfl <;> simp_all [isIdentStart]

theorem lexes_of_isIdentPart {text : String} (htext : text.toList = c :: cs)
    (hc : isIdentStart c = true) (hcs : ∀ d ∈ cs, isIdentPart d = true) :
    Spelling.Lexes ⟨Lexeme.wordKind (c :: cs), text⟩ := by
  refine ⟨?_, c, cs, htext, fun rest hrest => ?_⟩
  · unfold Lexeme.wordKind
    split <;> rfl
  · have hrun : Lexeme.run isIdentPart (cs ++ rest) = cs.length := by
      rw [run_append_of_isGap (by rfl) hrest, Lexeme.run, List.takeWhile_eq_self_iff.mpr hcs]
    simp [lexeme, isSpace_of_isIdentStart hc, hc, hrun]

theorem lexes_keyword (word : Keyword) : Spelling.Lexes ⟨.keyword word, word.text⟩ := by
  have hkind : Lexeme.wordKind word.text.toList = .keyword word := by
    simp [Lexeme.wordKind, Keyword.ofText?_text]
  obtain ⟨c, cs, htext, hc, hcs⟩ : ∃ c cs, word.text.toList = c :: cs ∧ isIdentStart c = true ∧
      ∀ d ∈ cs, isIdentPart d = true := by
    cases word <;> exact ⟨_, _, rfl, rfl, List.all_eq_true.mp rfl⟩
  rw [htext] at hkind
  rw [← hkind]
  exact lexes_of_isIdentPart htext hc hcs

def IsToken (kind : Kind) (text : String) : Prop :=
  (tokenize text).map Token.kind = [kind]

instance (kind : Kind) (text : String) : Decidable (IsToken kind text) :=
  inferInstanceAs (Decidable (_ = _))

theorem exists_lexeme_of_isToken {kind : Kind} {text : String} (h : IsToken kind text) :
    ∃ c cs, text.toList = c :: cs ∧ (lexeme c cs).1 = kind ∧ cs.length ≤ (lexeme c cs).2 := by
  unfold IsToken tokenize at h
  cases htext : text.toList with
  | nil => simp [htext, tokensFrom] at h
  | cons c cs =>
    rw [htext, tokensFrom, List.map_cons, List.cons_eq_cons] at h
    refine ⟨c, cs, rfl, h.1, ?_⟩
    cases hrest : cs.drop (lexeme c cs).2 with
    | nil => exact List.drop_eq_nil_iff.mp hrest
    | cons d ds =>
      rw [hrest, tokensFrom] at h
      simp at h

theorem symbol?_kind {cs : List Char} {spelling : List Char} {kind : Kind}
    (h : Lexeme.symbol? cs = some (spelling, kind)) : kind ≠ .ident ∧ kind ≠ .number := by
  have hmem := List.mem_of_find?_eq_some h
  have hall : ∀ symbol ∈ Lexeme.symbols, symbol.2 ≠ .ident ∧ symbol.2 ≠ .number := by decide
  exact hall _ hmem

theorem isIdentStart_of_lexeme (h : (lexeme c cs).1 = .ident) : isIdentStart c = true := by
  unfold lexeme at h
  split at h
  · simp at h
  · split at h
    next hc => exact hc
    next =>
      split at h
      · simp at h
      · split at h
        · dsimp only at h
          split at h <;> simp at h
        · split at h
          · simp at h
          · split at h
            · simp at h
            · split at h
              next hsymbol => exact absurd h (symbol?_kind hsymbol).1
              next => simp at h

theorem lexeme_of_number (h : (lexeme c cs).1 = .number) :
    ∀ ds, lexeme c ds = (.number, Lexeme.number c ds) := by
  intro ds
  unfold lexeme at h ⊢
  split at h
  · simp at h
  next hspace =>
    rw [if_neg hspace]
    split at h
    · unfold Lexeme.wordKind at h
      dsimp only at h
      split at h <;> simp at h
    next hstart =>
      rw [if_neg hstart]
      split at h
      next hdigit => rw [if_pos hdigit]
      next =>
        split at h
        · dsimp only at h
          split at h <;> simp at h
        · split at h
          · simp at h
          · split at h
            · simp at h
            · split at h
              next hsymbol => exact absurd h (symbol?_kind hsymbol).2
              next => simp at h

theorem lexes_ident {text : String} (h : IsToken .ident text) : Spelling.Lexes ⟨.ident, text⟩ := by
  obtain ⟨c, cs, htext, hkind, hlength⟩ := exists_lexeme_of_isToken h
  have hc := isIdentStart_of_lexeme hkind
  have hlex : lexeme c cs = (Lexeme.wordKind (c :: cs.take (Lexeme.run isIdentPart cs)),
      Lexeme.run isIdentPart cs) := by
    simp [lexeme, isSpace_of_isIdentStart hc, hc]
  rw [hlex] at hkind hlength
  have hall : cs.takeWhile isIdentPart = cs :=
    (List.takeWhile_prefix isIdentPart).eq_of_length_le hlength
  have hrun : Lexeme.run isIdentPart cs = cs.length := by rw [Lexeme.run, hall]
  rw [hrun, List.take_length] at hkind
  rw [← hkind]
  exact lexes_of_isIdentPart htext hc (List.takeWhile_eq_self_iff.mp hall)

theorem run_le_length (p : Char → Bool) (cs : List Char) : Lexeme.run p cs ≤ cs.length :=
  (List.takeWhile_prefix p).length_le

theorem digits_append (hrest : IsGap rest) (cs : List Char) :
    Lexeme.run Lexeme.isDigitPart (cs ++ rest) = Lexeme.run Lexeme.isDigitPart cs :=
  run_append_of_isGap (by rfl) hrest

theorem fraction_append (hrest : IsGap rest) :
    Lexeme.fraction (cs ++ rest) = Lexeme.fraction cs ∧ Lexeme.fraction cs ≤ cs.length := by
  cases cs with
  | nil => rcases hrest with rfl | ⟨ds, rfl⟩ <;> simp [Lexeme.fraction]
  | cons d ds =>
    by_cases hd : d = '.'
    · subst hd
      have hle := run_le_length Lexeme.isDigitPart ds
      simp only [List.cons_append, Lexeme.fraction, digits_append hrest, List.length_cons, true_and]
      split <;> omega
    · simp [Lexeme.fraction, hd]

theorem exponent_append (hrest : IsGap rest) :
    Lexeme.exponent (cs ++ rest) = Lexeme.exponent cs ∧ Lexeme.exponent cs ≤ cs.length := by
  match cs with
  | [] =>
    rcases hrest with rfl | ⟨ds, rfl⟩
    · simp [Lexeme.exponent]
    · cases ds with
      | nil => simp [Lexeme.exponent]
      | cons d ds => by_cases hd : d = '-' <;> simp [Lexeme.exponent, hd]
  | [mark] =>
    rcases hrest with rfl | ⟨ds, rfl⟩
    · simp [Lexeme.exponent, Lexeme.run]
    · simp [Lexeme.exponent, Lexeme.run, show Lexeme.isDigitPart ' ' = false from rfl]
  | mark :: d :: ds =>
    by_cases hd : d = '-'
    · subst hd
      have hle := run_le_length Lexeme.isDigitPart ds
      simp only [List.cons_append, Lexeme.exponent, digits_append hrest, List.length_cons, true_and]
      split <;> omega
    · have hplain (es : List Char) : Lexeme.exponent (mark :: d :: es) =
          if (mark = 'e' || mark = 'E') && Lexeme.run Lexeme.isDigitPart (d :: es) != 0 then
            Lexeme.run Lexeme.isDigitPart (d :: es) + 1 else 0 := by
        simp [Lexeme.exponent, hd]
      have hle := run_le_length Lexeme.isDigitPart (d :: ds)
      have hrun := digits_append hrest (d :: ds)
      rw [List.cons_append] at hrun
      rw [List.length_cons] at hle
      simp only [List.cons_append, hplain, hrun, List.length_cons, true_and]
      split <;> omega

theorem decimal_append (hrest : IsGap rest) :
    Lexeme.decimal (cs ++ rest) = Lexeme.decimal cs ∧ Lexeme.decimal cs ≤ cs.length := by
  unfold Lexeme.decimal
  dsimp only
  have hwhole := run_le_length Lexeme.isDigitPart cs
  rw [digits_append hrest, List.drop_append_of_le_length hwhole]
  generalize Lexeme.run Lexeme.isDigitPart cs = whole at *
  obtain ⟨hfraction, hpart⟩ := @fraction_append (cs.drop whole) rest hrest
  rw [hfraction]
  generalize Lexeme.fraction (cs.drop whole) = part at *
  rw [List.length_drop] at hpart
  rw [List.drop_append_of_le_length (by omega)]
  obtain ⟨hexponent, hlast⟩ := @exponent_append (cs.drop (whole + part)) rest hrest
  rw [hexponent]
  rw [List.length_drop] at hlast
  exact ⟨rfl, by omega⟩

theorem number_append (c : Char) (cs : List Char) (hrest : IsGap rest) :
    Lexeme.number c (cs ++ rest) = Lexeme.number c cs ∧ Lexeme.number c cs ≤ cs.length := by
  cases cs with
  | nil =>
    rcases hrest with rfl | ⟨ds, rfl⟩
    · simp [Lexeme.number]
    · have hdecimal := (@decimal_append [] (' ' :: ds) (Or.inr ⟨ds, rfl⟩)).1
      rw [List.nil_append] at hdecimal
      simp [Lexeme.number, hdecimal, show Lexeme.decimal [] = 0 from rfl]
  | cons d ds =>
    obtain ⟨hdecimal, hle⟩ := @decimal_append (d :: ds) rest hrest
    have hhex := run_le_length Lexeme.isHexPart ds
    have hrun : Lexeme.run Lexeme.isHexPart (ds ++ rest) = Lexeme.run Lexeme.isHexPart ds :=
      run_append_of_isGap (by rfl) hrest
    rw [List.cons_append] at hdecimal
    simp only [List.cons_append, Lexeme.number, hrun, hdecimal, true_and]
    split
    · rw [List.length_cons]
      omega
    · exact hle

theorem lexes_number {text : String} (h : IsToken .number text) :
    Spelling.Lexes ⟨.number, text⟩ := by
  obtain ⟨c, cs, htext, hkind, hlength⟩ := exists_lexeme_of_isToken h
  have hlex := lexeme_of_number hkind
  rw [hlex] at hlength
  refine ⟨rfl, c, cs, htext, fun rest hrest => ?_⟩
  obtain ⟨happend, hle⟩ := number_append c cs hrest
  rw [hlex, happend, Nat.le_antisymm hle hlength]

theorem quoted_append {path : List Char}
    (h : ∀ d ∈ path, d ≠ '"' ∧ d ≠ '\\' ∧ d ≠ '\r' ∧ d ≠ '\n') (rest : List Char) :
    Lexeme.quoted '"' (path ++ '"' :: rest) = (path.length + 1, true) := by
  induction path with
  | nil => simp [Lexeme.quoted]
  | cons d ds ih =>
    obtain ⟨hquote, hescape, hreturn, hline⟩ := h d (by simp)
    have htail := ih fun e he => h e (by simp [he])
    rw [List.cons_append, Lexeme.quoted]
    · simp [hquote, hescape, hreturn, hline, htail]
    · exact fun _ _ h => absurd h hescape

theorem lexes_quoted {path : String}
    (h : ∀ d ∈ path.toList, d ≠ '"' ∧ d ≠ '\\' ∧ d ≠ '\r' ∧ d ≠ '\n') :
    Spelling.Lexes ⟨.string, "\"" ++ path ++ "\""⟩ := by
  refine ⟨rfl, '"', path.toList ++ ['"'], by simp, fun rest hrest => ?_⟩
  have hquoted := quoted_append h rest
  rw [List.append_assoc, List.singleton_append]
  simp [lexeme, hquoted, show Lexeme.isSpace '"' = false from rfl,
    show isIdentStart '"' = false from rfl, show ('"').isDigit = false from rfl]

end words

namespace Spelling

def word (keyword : Keyword) : Spelling := ⟨.keyword keyword, keyword.text⟩

def ident (text : String) : Spelling := ⟨.ident, text⟩

def opening : Bracket → Spelling
  | .paren => ⟨.opens .paren, "("⟩
  | .square => ⟨.opens .square, "["⟩
  | .brace => ⟨.opens .brace, "\x7b"⟩

def closing : Bracket → Spelling
  | .paren => ⟨.closes .paren, ")"⟩
  | .square => ⟨.closes .square, "]"⟩
  | .brace => ⟨.closes .brace, "\x7d"⟩

def semicolon : Spelling := ⟨.semicolon, ";"⟩

def comma : Spelling := ⟨.comma, ","⟩

def dot : Spelling := ⟨.dot, "."⟩

def arrow : Spelling := ⟨.fatArrow, "=>"⟩

def star : Spelling := ⟨.star, "*"⟩

def quoted (path : String) : Spelling := ⟨.string, "\"" ++ path ++ "\""⟩

theorem lexes_of_ends {w : Spelling} {c : Char} {cs : List Char} (htext : w.text.toList = c :: cs)
    (hsig : w.kind.isSignificant = true) (hend : lexeme c cs = (w.kind, cs.length))
    (hspace : ∀ ds, lexeme c (cs ++ ' ' :: ds) = (w.kind, cs.length)) : w.Lexes := by
  refine ⟨hsig, c, cs, htext, fun rest hrest => ?_⟩
  rcases hrest with rfl | ⟨ds, rfl⟩
  · rwa [List.append_nil]
  · exact hspace ds

theorem lexes_opening (shape : Bracket) : (opening shape).Lexes := by
  cases shape <;> exact lexes_of_ends rfl rfl rfl fun _ => rfl

theorem lexes_closing (shape : Bracket) : (closing shape).Lexes := by
  cases shape <;> exact lexes_of_ends rfl rfl rfl fun _ => rfl

theorem lexes_semicolon : semicolon.Lexes := lexes_of_ends rfl rfl rfl fun _ => rfl

theorem lexes_comma : comma.Lexes := lexes_of_ends rfl rfl rfl fun _ => rfl

theorem lexes_dot : dot.Lexes := lexes_of_ends rfl rfl rfl fun _ => rfl

theorem lexes_arrow : arrow.Lexes := lexes_of_ends rfl rfl rfl fun _ => rfl

theorem lexes_star : star.Lexes := lexes_of_ends rfl rfl rfl fun _ => rfl

end Spelling

end SolidityCompass
