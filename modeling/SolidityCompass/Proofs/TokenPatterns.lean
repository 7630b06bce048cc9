import Mathlib.Computability.Language
import SolidityCompass.Proofs.Spelling

/-!
# Token patterns

Every kind of token is declared by regular patterns. `tokenRules` lists them: the trivia, the
literals, the punctuation and operators, and the keywords. `Spells` says what the patterns match,
one case for each pattern, in terms of the character that begins the token and those behind it.
-/

namespace SolidityCompass

open Computability Lexeme

inductive Pattern where
  | empty
  | char (p : Char → Bool)
  | seq (a b : Pattern)
  | alt (a b : Pattern)
  | star (a : Pattern)

namespace Pattern

def language : Pattern → Language Char
  | empty => 1
  | char p => {w | ∃ c, p c = true ∧ w = [c]}
  | seq a b => a.language * b.language
  | alt a b => a.language + b.language
  | star a => a.language∗

def plus (a : Pattern) : Pattern := a.seq a.star

def optional (a : Pattern) : Pattern := alt empty a

def literal (text : String) : Pattern :=
  text.toList.foldr (fun c rest => seq (char fun d => d = c) rest) empty

def inRanges (ranges : List (Char × Char)) (c : Char) : Bool :=
  ranges.any fun range => range.1 ≤ c && c ≤ range.2

def oneOf (ranges : List (Char × Char)) : Pattern := char (inRanges ranges)

def noneOf (chars : List Char) : Pattern :=
  char fun c => !chars.contains c

/-! ## What the patterns of tokens are made of -/

def blanks : Pattern :=
  plus (oneOf [(' ', ' '), ('\t', '\t'), ('\r', '\r'), ('\n', '\n'), ('\x0c', '\x0c')])

def lineComment : Pattern := seq (literal "//") (star (noneOf ['\n']))

def identifier : Pattern :=
  seq (oneOf [('a', 'z'), ('A', 'Z'), ('_', '_'), ('$', '$')])
    (star (oneOf [('a', 'z'), ('A', 'Z'), ('0', '9'), ('_', '_'), ('$', '$')]))

def hexNumber : Pattern :=
  seq (literal "0") (seq (oneOf [('x', 'x'), ('X', 'X')])
    (plus (oneOf [('0', '9'), ('a', 'f'), ('A', 'F'), ('_', '_')])))

def digits : Pattern := oneOf [('0', '9'), ('_', '_')]

def fraction : Pattern := seq (literal ".") (plus digits)

def exponent : Pattern :=
  seq (oneOf [('e', 'e'), ('E', 'E')]) (seq (optional (literal "-")) (plus digits))

def decimalNumber : Pattern :=
  seq (oneOf [('0', '9')]) (seq (star digits) (seq (optional fraction) (optional exponent)))

/-- A literal between two quotes, on one line, in which a backslash escapes the next character. -/
def quotedText (quote : Char) : Pattern :=
  seq (oneOf [(quote, quote)]) (seq
    (star (alt (noneOf [quote, '\\', '\r', '\n']) (seq (literal "\\") (noneOf ['\n']))))
    (oneOf [(quote, quote)]))

end Pattern

structure TokenRule where
  kind : Kind
  pattern : Pattern

def punctuation : List (String × Kind) :=
  [("\x7b", .opens .brace), ("\x7d", .closes .brace), ("[", .opens .square),
   ("]", .closes .square), ("(", .opens .paren), (")", .closes .paren), (";", .semicolon),
   (",", .comma), (".", .dot), ("=", .eq), ("=>", .fatArrow), ("*", .star)]

def operators : List String :=
  ["==", "!=", "<=", ">=", "&&", "||", "++", "--", "+=", "-=", "*=", "/=", "%=", "|=", "&=", "^=",
   "**", "<<", ">>", "<<=", ">>=", "->", ":=", "+", "-", "/", "%", "!", "~", "^", "&", "|", "<",
   ">", "?", ":", "@"]

def fixedSymbols : List (String × Kind) :=
  punctuation ++ operators.map fun text => (text, .operator)

/-- The trivia and the literals; of a block comment only the opening is declared. -/
def patternRules : List TokenRule :=
  [⟨.whitespace, .blanks⟩, ⟨.lineComment, .lineComment⟩, ⟨.blockComment, .literal "/*"⟩,
   ⟨.ident, .identifier⟩, ⟨.number, .hexNumber⟩, ⟨.number, .decimalNumber⟩,
   ⟨.string, .quotedText '"'⟩, ⟨.string, .quotedText '\''⟩]

def tokenRules : List TokenRule :=
  patternRules ++
    (fixedSymbols.map (fun symbol => ⟨symbol.2, .literal symbol.1⟩) ++
      Keyword.all.map fun word => ⟨.keyword word, .literal word.text⟩)

namespace Pattern

variable {a b : Pattern} {p : Char → Bool} {w : List Char}

@[simp] theorem mem_empty : w ∈ empty.language ↔ w = [] := Iff.rfl

@[simp] theorem mem_char : w ∈ (char p).language ↔ ∃ c, p c = true ∧ w = [c] := Iff.rfl

@[simp] theorem mem_alt : w ∈ (alt a b).language ↔ w ∈ a.language ∨ w ∈ b.language := Iff.rfl

theorem mem_seq : w ∈ (seq a b).language ↔ ∃ u ∈ a.language, ∃ v ∈ b.language, u ++ v = w :=
  Language.mem_mul

theorem mem_star :
    w ∈ a.star.language ↔ ∃ parts : List (List Char), w = parts.flatten ∧
      ∀ part ∈ parts, part ∈ a.language :=
  Language.mem_kstar

theorem mem_optional : w ∈ (optional a).language ↔ w = [] ∨ w ∈ a.language := Iff.rfl

theorem mem_char_seq :
    w ∈ (seq (char p) a).language ↔ ∃ c v, w = c :: v ∧ p c = true ∧ v ∈ a.language := by
  rw [mem_seq]
  constructor
  · rintro ⟨_, ⟨c, hc, rfl⟩, v, hv, rfl⟩
    exact ⟨c, v, rfl, hc, hv⟩
  · rintro ⟨c, v, rfl, hc, hv⟩
    exact ⟨[c], ⟨c, hc, rfl⟩, v, hv, rfl⟩

theorem mem_star_char : w ∈ (char p).star.language ↔ ∀ c ∈ w, p c = true := by
  rw [mem_star]
  constructor
  · rintro ⟨parts, rfl, hparts⟩ c hc
    obtain ⟨part, hpart, hmem⟩ := List.mem_flatten.mp hc
    obtain ⟨d, hd, rfl⟩ := hparts part hpart
    rwa [List.mem_singleton.mp hmem]
  · intro h
    refine ⟨w.map fun c => [c], (List.flatMap_singleton' w).symm, ?_⟩
    rw [List.forall_mem_map]
    exact fun c hc => ⟨c, h c hc, rfl⟩

theorem mem_plus_char : w ∈ (char p).plus.language ↔ w ≠ [] ∧ ∀ c ∈ w, p c = true := by
  rw [plus, mem_char_seq]
  simp only [mem_star_char]
  constructor
  · rintro ⟨c, v, rfl, hc, hv⟩
    exact ⟨List.cons_ne_nil c v, List.forall_mem_cons.mpr ⟨hc, hv⟩⟩
  · rintro ⟨hne, hall⟩
    obtain ⟨c, v, rfl⟩ := List.exists_cons_of_ne_nil hne
    obtain ⟨hc, hv⟩ := List.forall_mem_cons.mp hall
    exact ⟨c, v, rfl, hc, hv⟩

theorem mem_foldr_char (cs : List Char) :
    w ∈ (cs.foldr (fun c rest => seq (char fun d => d = c) rest) empty).language ↔ w = cs := by
  induction cs generalizing w with
  | nil => exact Iff.rfl
  | cons c cs ih =>
    rw [List.foldr_cons, mem_char_seq]
    simp only [ih, decide_eq_true_eq]
    constructor
    · rintro ⟨d, v, rfl, rfl, rfl⟩
      rfl
    · rintro rfl
      exact ⟨c, cs, rfl, rfl, rfl⟩

theorem mem_literal {text : String} : w ∈ (literal text).language ↔ w = text.toList :=
  mem_foldr_char text.toList

theorem mem_literal_seq {text : String} :
    w ∈ (seq (literal text) a).language ↔ ∃ v ∈ a.language, w = text.toList ++ v := by
  rw [mem_seq]
  simp only [mem_literal]
  constructor
  · rintro ⟨_, rfl, v, hv, rfl⟩
    exact ⟨v, hv, rfl⟩
  · rintro ⟨v, hv, rfl⟩
    exact ⟨_, rfl, v, hv, rfl⟩

/-! ## Character classes -/

theorem le_and_le_eq (a c : Char) : (decide (a ≤ c) && decide (c ≤ a)) = decide (c = a) := by
  rw [← Bool.decide_and, decide_eq_decide]
  exact ⟨fun h => Char.le_antisymm h.2 h.1, fun h => h ▸ ⟨Char.le_refl c, Char.le_refl c⟩⟩

theorem inRanges_single (a c : Char) : inRanges [(a, a)] c = decide (c = a) := by
  simp [inRanges, le_and_le_eq]

theorem oneOf_space :
    oneOf [(' ', ' '), ('\t', '\t'), ('\r', '\r'), ('\n', '\n'), ('\x0c', '\x0c')] =
      char isSpace := by
  refine congrArg char (funext fun c => ?_)
  simp [inRanges, le_and_le_eq, isSpace, Bool.or_assoc]

theorem isAlpha_iff (c : Char) : c.isAlpha = true ↔
    ('A' ≤ c ∧ c ≤ 'Z') ∨ ('a' ≤ c ∧ c ≤ 'z') := by
  have hcases :
      c.isAlpha = (decide ('A' ≤ c ∧ c ≤ 'Z') || (decide ('a' ≤ c) && decide (c ≤ 'z'))) := rfl
  simp [hcases]

theorem oneOf_identStart :
    oneOf [('a', 'z'), ('A', 'Z'), ('_', '_'), ('$', '$')] = char isIdentStart := by
  refine congrArg char (funext fun c => Bool.eq_iff_iff.mpr ?_)
  simp only [inRanges, List.any_cons, List.any_nil, le_and_le_eq]
  simp only [isIdentStart, isAlpha_iff, Bool.or_false, Bool.or_eq_true, Bool.and_eq_true,
    decide_eq_true_eq]
  tauto

theorem oneOf_identPart :
    oneOf [('a', 'z'), ('A', 'Z'), ('0', '9'), ('_', '_'), ('$', '$')] = char isIdentPart := by
  refine congrArg char (funext fun c => Bool.eq_iff_iff.mpr ?_)
  simp only [inRanges, List.any_cons, List.any_nil, le_and_le_eq]
  simp only [isIdentPart, isIdentStart, isAlpha_iff, Char.isDigit, Bool.or_false, Bool.or_eq_true,
    Bool.and_eq_true, decide_eq_true_eq, Char.le_def, ge_iff_le]
  tauto

theorem oneOf_digit : oneOf [('0', '9')] = char Char.isDigit := by
  refine congrArg char (funext fun c => ?_)
  simp only [inRanges, List.any_cons, List.any_nil, Char.isDigit, Bool.or_false]
  rfl

theorem oneOf_digitPart : oneOf [('0', '9'), ('_', '_')] = char isDigitPart := by
  refine congrArg char (funext fun c => ?_)
  simp only [inRanges, List.any_cons, List.any_nil, le_and_le_eq, isDigitPart, Char.isDigit,
    Bool.or_false]
  rfl

theorem oneOf_hexPart :
    oneOf [('0', '9'), ('a', 'f'), ('A', 'F'), ('_', '_')] = char isHexPart := by
  refine congrArg char (funext fun c => Bool.eq_iff_iff.mpr ?_)
  simp only [inRanges, List.any_cons, List.any_nil, le_and_le_eq]
  simp only [isHexPart, isDigitPart, Char.isDigit, Bool.or_false, Bool.or_eq_true,
    Bool.and_eq_true, decide_eq_true_eq, Char.le_def, ge_iff_le]
  tauto

end Pattern

/-! ## What the rules match -/

def IsFraction (cs : List Char) : Prop :=
  cs = [] ∨ ∃ ds, cs = '.' :: ds ∧ ds ≠ [] ∧ ∀ d ∈ ds, isDigitPart d = true

def IsExponent (cs : List Char) : Prop :=
  cs = [] ∨ ∃ mark sign ds, cs = mark :: (sign ++ ds) ∧ (mark = 'e' ∨ mark = 'E') ∧
    (sign = [] ∨ sign = ['-']) ∧ ds ≠ [] ∧ ∀ d ∈ ds, isDigitPart d = true

def IsStringPart (quote : Char) (cs : List Char) : Prop :=
  (∃ c, cs = [c] ∧ c ≠ quote ∧ c ≠ '\\' ∧ c ≠ '\r' ∧ c ≠ '\n') ∨ ∃ c, cs = ['\\', c] ∧ c ≠ '\n'

inductive Spells : Kind → Char → List Char → Prop
  | blanks {c : Char} {cs : List Char} (hc : isSpace c = true) (hcs : ∀ d ∈ cs, isSpace d = true) :
    Spells .whitespace c cs
  | lineComment {cs : List Char} (hcs : ∀ d ∈ cs, d ≠ '\n') : Spells .lineComment '/' ('/' :: cs)
  | commentOpening : Spells .blockComment '/' ['*']
  | identifier {c : Char} {cs : List Char} (hc : isIdentStart c = true)
    (hcs : ∀ d ∈ cs, isIdentPart d = true) : Spells .ident c cs
  | hexNumber {mark : Char} {ds : List Char} (hmark : mark = 'x' ∨ mark = 'X') (hne : ds ≠ [])
    (hds : ∀ d ∈ ds, isHexPart d = true) : Spells .number '0' (mark :: ds)
  | decimalNumber {c : Char} {whole part power : List Char} (hc : c.isDigit = true)
    (hwhole : ∀ d ∈ whole, isDigitPart d = true) (hpart : IsFraction part)
    (hpower : IsExponent power) : Spells .number c (whole ++ (part ++ power))
  | quotedText {quote : Char} {parts : List (List Char)} (hquote : quote = '"' ∨ quote = '\'')
    (hparts : ∀ part ∈ parts, IsStringPart quote part) :
    Spells .string quote (parts.flatten ++ [quote])
  | symbol {c : Char} {cs : List Char} {kind : Kind} (h : (c :: cs, kind) ∈ symbols) :
    Spells kind c cs
  | keyword {c : Char} {cs : List Char} {word : Keyword} (h : word.text.toList = c :: cs) :
    Spells (.keyword word) c cs

section rules

variable {c quote : Char} {cs w : List Char} {kind : Kind}

open Pattern

theorem mem_blanks :
    c :: cs ∈ blanks.language ↔ isSpace c = true ∧ ∀ d ∈ cs, isSpace d = true := by
  simp [blanks, oneOf_space, mem_plus_char]

theorem mem_lineComment :
    w ∈ lineComment.language ↔ ∃ cs, w = '/' :: '/' :: cs ∧ ∀ d ∈ cs, d ≠ '\n' := by
  rw [lineComment, mem_literal_seq]
  simp only [noneOf, mem_star_char]
  constructor
  · rintro ⟨v, hv, rfl⟩
    exact ⟨v, rfl, by simpa using hv⟩
  · rintro ⟨v, rfl, hv⟩
    exact ⟨v, by simpa using hv, rfl⟩

theorem mem_identifier :
    c :: cs ∈ identifier.language ↔ isIdentStart c = true ∧ ∀ d ∈ cs, isIdentPart d = true := by
  rw [identifier, oneOf_identStart, oneOf_identPart, mem_char_seq]
  simp only [mem_star_char]
  constructor
  · rintro ⟨d, ds, heq, hd, hds⟩
    obtain ⟨rfl, rfl⟩ := List.cons.inj heq
    exact ⟨hd, hds⟩
  · exact fun h => ⟨c, cs, rfl, h⟩

theorem mem_hexNumber :
    w ∈ hexNumber.language ↔ ∃ mark ds, w = '0' :: mark :: ds ∧ (mark = 'x' ∨ mark = 'X') ∧
      ds ≠ [] ∧ ∀ d ∈ ds, isHexPart d = true := by
  rw [hexNumber, mem_literal_seq, oneOf_hexPart, oneOf]
  simp only [mem_char_seq, mem_plus_char, inRanges, List.any_cons, List.any_nil, le_and_le_eq,
    Bool.or_false, Bool.or_eq_true, decide_eq_true_eq]
  constructor
  · rintro ⟨_, ⟨mark, ds, rfl, hmark, hds⟩, rfl⟩
    exact ⟨mark, ds, rfl, hmark, hds⟩
  · rintro ⟨mark, ds, rfl, hmark, hds⟩
    exact ⟨mark :: ds, ⟨mark, ds, rfl, hmark, hds⟩, rfl⟩

theorem mem_fraction : w ∈ (optional fraction).language ↔ IsFraction w := by
  rw [mem_optional, Pattern.fraction, digits, mem_literal_seq, oneOf_digitPart]
  simp only [mem_plus_char, IsFraction]
  refine or_congr_right ⟨?_, ?_⟩
  · rintro ⟨ds, hds, rfl⟩
    exact ⟨ds, rfl, hds⟩
  · rintro ⟨ds, rfl, hds⟩
    exact ⟨ds, hds, rfl⟩

theorem mem_exponent : w ∈ (optional exponent).language ↔ IsExponent w := by
  rw [mem_optional, Pattern.exponent, digits, oneOf_digitPart, oneOf, mem_char_seq]
  simp only [mem_seq, mem_optional, mem_literal, mem_plus_char, inRanges,
    List.any_cons, List.any_nil, le_and_le_eq, Bool.or_false, Bool.or_eq_true, decide_eq_true_eq,
    IsExponent]
  refine or_congr_right ⟨?_, ?_⟩
  · rintro ⟨mark, _, rfl, hmark, sign, hsign, ds, hds, rfl⟩
    exact ⟨mark, sign, ds, rfl, hmark, hsign, hds⟩
  · rintro ⟨mark, sign, ds, rfl, hmark, hsign, hds⟩
    exact ⟨mark, sign ++ ds, rfl, hmark, sign, hsign, ds, hds, rfl⟩

theorem mem_decimalNumber :
    w ∈ decimalNumber.language ↔ ∃ c whole part power, w = c :: (whole ++ (part ++ power)) ∧
      c.isDigit = true ∧ (∀ d ∈ whole, isDigitPart d = true) ∧ IsFraction part ∧
      IsExponent power := by
  rw [decimalNumber, oneOf_digit, mem_char_seq]
  simp only [mem_seq, mem_fraction, mem_exponent, digits, oneOf_digitPart, mem_star_char]
  constructor
  · rintro ⟨c, _, rfl, hc, whole, hwhole, _, ⟨part, hpart, power, hpower, rfl⟩, rfl⟩
    exact ⟨c, whole, part, power, rfl, hc, hwhole, hpart, hpower⟩
  · rintro ⟨c, whole, part, power, rfl, hc, hwhole, hpart, hpower⟩
    exact ⟨c, _, rfl, hc, whole, hwhole, _, ⟨part, hpart, power, hpower, rfl⟩, rfl⟩

theorem mem_stringPart :
    w ∈ (alt (noneOf [quote, '\\', '\r', '\n']) (seq (literal "\\") (noneOf ['\n']))).language ↔
      IsStringPart quote w := by
  rw [mem_alt, mem_literal_seq, noneOf, noneOf]
  simp only [mem_char, IsStringPart]
  refine or_congr ⟨?_, ?_⟩ ⟨?_, ?_⟩
  · rintro ⟨c, hc, rfl⟩
    exact ⟨c, rfl, by simpa using hc⟩
  · rintro ⟨c, rfl, hc⟩
    exact ⟨c, by simpa using hc, rfl⟩
  · rintro ⟨_, ⟨c, hc, rfl⟩, rfl⟩
    exact ⟨c, rfl, by simpa using hc⟩
  · rintro ⟨c, rfl, hc⟩
    exact ⟨[c], ⟨c, by simpa using hc, rfl⟩, rfl⟩

theorem mem_quotedText :
    w ∈ (quotedText quote).language ↔ ∃ parts : List (List Char),
      w = quote :: (parts.flatten ++ [quote]) ∧ ∀ part ∈ parts, IsStringPart quote part := by
  rw [quotedText, oneOf, mem_char_seq]
  simp only [mem_seq, mem_star, mem_stringPart, mem_char, inRanges_single, decide_eq_true_eq]
  constructor
  · rintro ⟨_, _, rfl, rfl, _, ⟨parts, rfl, hparts⟩, _, ⟨_, rfl, rfl⟩, rfl⟩
    exact ⟨parts, rfl, hparts⟩
  · rintro ⟨parts, rfl, hparts⟩
    exact ⟨quote, _, rfl, rfl, _, ⟨parts, rfl, hparts⟩, _, ⟨quote, rfl, rfl⟩, rfl⟩

/-- The lexer's table of symbols holds what is declared, in another order. -/
theorem mem_symbols_iff : (w, kind) ∈ symbols ↔ (String.ofList w, kind) ∈ fixedSymbols := by
  have hdeclared : ∀ symbol ∈ symbols, (String.ofList symbol.1, symbol.2) ∈ fixedSymbols := by
    decide
  have hknown : ∀ symbol ∈ fixedSymbols, (symbol.1.toList, symbol.2) ∈ symbols := by
    decide
  refine ⟨hdeclared (w, kind), fun h => ?_⟩
  simpa using hknown _ h

theorem spells_of_mem_patternRules {rule : TokenRule} (h : rule ∈ patternRules)
    (hmem : c :: cs ∈ rule.pattern.language) : Spells rule.kind c cs := by
  simp only [patternRules, List.mem_cons, List.not_mem_nil, or_false] at h
  rcases h with rfl | rfl | rfl | rfl | rfl | rfl | rfl | rfl
  · obtain ⟨hc, hcs⟩ := mem_blanks.mp hmem
    exact .blanks hc hcs
  · obtain ⟨ds, heq, hds⟩ := mem_lineComment.mp hmem
    obtain ⟨rfl, rfl⟩ := List.cons.inj heq
    exact .lineComment hds
  · obtain ⟨rfl, rfl⟩ := List.cons.inj (mem_literal.mp hmem)
    exact .commentOpening
  · obtain ⟨hc, hcs⟩ := mem_identifier.mp hmem
    exact .identifier hc hcs
  · obtain ⟨mark, ds, heq, hmark, hne, hds⟩ := mem_hexNumber.mp hmem
    obtain ⟨rfl, rfl⟩ := List.cons.inj heq
    exact .hexNumber hmark hne hds
  · obtain ⟨d, whole, part, power, heq, hd, hwhole, hpart, hpower⟩ := mem_decimalNumber.mp hmem
    obtain ⟨rfl, rfl⟩ := List.cons.inj heq
    exact .decimalNumber hd hwhole hpart hpower
  · obtain ⟨parts, heq, hparts⟩ := mem_quotedText.mp hmem
    obtain ⟨rfl, rfl⟩ := List.cons.inj heq
    exact .quotedText (Or.inl rfl) hparts
  · obtain ⟨parts, heq, hparts⟩ := mem_quotedText.mp hmem
    obtain ⟨rfl, rfl⟩ := List.cons.inj heq
    exact .quotedText (Or.inr rfl) hparts

theorem spells_of_mem_tokenRules {rule : TokenRule} (h : rule ∈ tokenRules)
    (hmem : c :: cs ∈ rule.pattern.language) : Spells rule.kind c cs := by
  simp only [tokenRules, List.mem_append, List.mem_map] at h
  rcases h with h | ⟨⟨text, kind⟩, hsymbol, rfl⟩ | ⟨word, -, rfl⟩
  · exact spells_of_mem_patternRules h hmem
  · refine .symbol (mem_symbols_iff.mpr ?_)
    rw [mem_literal.mp hmem, String.ofList_toList]
    exact hsymbol
  · exact .keyword (mem_literal.mp hmem).symm

theorem Spells.exists_rule (h : Spells kind c cs) :
    ∃ rule ∈ tokenRules, rule.kind = kind ∧ c :: cs ∈ rule.pattern.language := by
  have hpattern {rule : TokenRule} (hrule : rule ∈ patternRules) : rule ∈ tokenRules :=
    List.mem_append_left _ hrule
  cases h with
  | blanks hc hcs =>
    exact ⟨⟨_, .blanks⟩, hpattern (by simp [patternRules]), rfl, mem_blanks.mpr ⟨hc, hcs⟩⟩
  | lineComment hcs =>
    exact ⟨⟨_, .lineComment⟩, hpattern (by simp [patternRules]), rfl,
      mem_lineComment.mpr ⟨_, rfl, hcs⟩⟩
  | commentOpening =>
    exact ⟨⟨_, .literal "/*"⟩, hpattern (by simp [patternRules]), rfl, mem_literal.mpr rfl⟩
  | identifier hc hcs =>
    exact ⟨⟨_, .identifier⟩, hpattern (by simp [patternRules]), rfl, mem_identifier.mpr ⟨hc, hcs⟩⟩
  | hexNumber hmark hne hds =>
    exact ⟨⟨_, .hexNumber⟩, hpattern (by simp [patternRules]), rfl,
      mem_hexNumber.mpr ⟨_, _, rfl, hmark, hne, hds⟩⟩
  | decimalNumber hc hwhole hpart hpower =>
    exact ⟨⟨_, .decimalNumber⟩, hpattern (by simp [patternRules]), rfl,
      mem_decimalNumber.mpr ⟨_, _, _, _, rfl, hc, hwhole, hpart, hpower⟩⟩
  | quotedText hquote hparts =>
    refine ⟨⟨_, .quotedText c⟩, hpattern ?_, rfl, mem_quotedText.mpr ⟨_, rfl, hparts⟩⟩
    rcases hquote with rfl | rfl <;> simp [patternRules]
  | symbol h =>
    refine ⟨⟨_, .literal (String.ofList (c :: cs))⟩, ?_, rfl, mem_literal.mpr (by simp)⟩
    exact List.mem_append_right _ (List.mem_append_left _
      (List.mem_map.mpr ⟨_, mem_symbols_iff.mp h, rfl⟩))
  | @keyword _ _ word h =>
    refine ⟨⟨_, .literal word.text⟩, ?_, rfl, mem_literal.mpr h.symm⟩
    exact List.mem_append_right _ (List.mem_append_right _
      (List.mem_map.mpr ⟨word, Keyword.mem_all word, rfl⟩))

end rules

end SolidityCompass
