import SolidityCompass.Proofs.Scanners

/-!
# The longest match

A token that is neither a block comment nor an error is the longest beginning of the text at its
place that a declared pattern matches, and its kind is that of such a pattern, a keyword before an
identifier. A block comment goes on to the first `*/` behind its opening, and an error stands
where no pattern matches at all.
-/

namespace SolidityCompass

open Lexeme

section lexemes

variable {c : Char} {cs rest v : List Char} {kind : Kind}

theorem isSpace_of_isDigit (h : c.isDigit = true) : isSpace c = false := by
  cases hspace : isSpace c with
  | false => rfl
  | true =>
    simp only [isSpace, Bool.or_eq_true, decide_eq_true_eq] at hspace
    rcases hspace with (((rfl | rfl) | rfl) | rfl) | rfl <;> simp at h

theorem isIdentStart_of_isDigit (h : c.isDigit = true) : isIdentStart c = false := by
  rw [Bool.eq_false_iff]
  intro hstart
  simp only [Char.isDigit, Bool.and_eq_true, decide_eq_true_eq, ge_iff_le,
    UInt32.le_iff_toNat_le] at h
  simp only [isIdentStart, Pattern.isAlpha_iff, Bool.or_eq_true, decide_eq_true_eq, Char.le_def,
    UInt32.le_iff_toNat_le] at hstart
  rcases hstart with ((⟨hlow, -⟩ | ⟨hlow, -⟩) | rfl) | rfl
  · simp at h hlow
    omega
  · simp at h hlow
    omega
  · simp at h
  · simp at h

theorem lexeme_of_isSpace (h : isSpace c = true) (cs : List Char) :
    lexeme c cs = (.whitespace, run isSpace cs) := by
  simp [lexeme, h]

theorem lexeme_of_isIdentStart (h : isIdentStart c = true) (cs : List Char) :
    lexeme c cs = (wordKind (c :: cs.take (run isIdentPart cs)), run isIdentPart cs) := by
  simp [lexeme, isSpace_of_isIdentStart h, h]

theorem lexeme_of_isDigit (h : c.isDigit = true) (cs : List Char) :
    lexeme c cs = (.number, number c cs) := by
  simp [lexeme, isSpace_of_isDigit h, isIdentStart_of_isDigit h, h]

theorem lexeme_of_quote (h : c = '"' ∨ c = '\'') (cs : List Char) :
    lexeme c cs = (if (quoted c cs).2 then .string else .error, (quoted c cs).1) := by
  rcases h with rfl | rfl <;> rfl

theorem lexeme_of_slashes (cs : List Char) :
    lexeme '/' ('/' :: cs) = (.lineComment, run (· != '\n') ('/' :: cs)) := rfl

theorem lexeme_of_opening (cs : List Char) :
    lexeme '/' ('*' :: cs) = (.blockComment, commentBody cs + 1) := rfl

/-- A symbol is read wherever no comment begins. -/
theorem lexeme_of_symbol {word : List Char} (h : symbol? (c :: cs) = some (word, kind))
    (hline : ¬ (c = '/' ∧ cs.head? = some '/')) (hblock : ¬ (c = '/' ∧ cs.head? = some '*')) :
    lexeme c cs = (kind, word.length - 1) := by
  obtain ⟨v, rfl, hmem, -⟩ := exists_of_symbol? h
  obtain ⟨hspace, hstart, hdigit, hquote⟩ := first_of_symbol hmem
  simp only [lexeme, hspace, hstart, hdigit, hquote, Bool.false_eq_true, if_false]
  simp [hline, hblock, h]

inductive Begins (c : Char) (cs : List Char) : Prop
  | blank (h : isSpace c = true)
  | word (h : isIdentStart c = true)
  | number (h : c.isDigit = true)
  | quoted (h : c = '"' ∨ c = '\'')
  | lineComment (ds : List Char) (hc : c = '/') (hcs : cs = '/' :: ds)
  | blockComment (ds : List Char) (hc : c = '/') (hcs : cs = '*' :: ds)
  | symbol (v : List Char) (kind : Kind) (hmem : (c :: v, kind) ∈ symbols) (hv : v <+: cs)
    (h : lexeme c cs = (kind, v.length))
  | stray (hquote : ¬ (c = '"' ∨ c = '\'')) (h : lexeme c cs = (.error, 0))

theorem begins (c : Char) (cs : List Char) : Begins c cs := by
  by_cases hspace : isSpace c = true
  · exact .blank hspace
  by_cases hstart : isIdentStart c = true
  · exact .word hstart
  by_cases hdigit : c.isDigit = true
  · exact .number hdigit
  by_cases hquote : c = '"' ∨ c = '\''
  · exact .quoted hquote
  by_cases hline : c = '/' ∧ cs.head? = some '/'
  · obtain ⟨ds, hcs⟩ := List.head?_eq_some_iff.mp hline.2
    exact .lineComment ds hline.1 hcs
  by_cases hblock : c = '/' ∧ cs.head? = some '*'
  · obtain ⟨ds, hcs⟩ := List.head?_eq_some_iff.mp hblock.2
    exact .blockComment ds hblock.1 hcs
  cases hsymbol : symbol? (c :: cs) with
  | some found =>
    obtain ⟨v, hword, hmem, hv⟩ := exists_of_symbol? hsymbol
    refine .symbol v found.2 hmem hv ?_
    rw [lexeme_of_symbol hsymbol hline hblock, hword, List.length_cons, Nat.add_sub_cancel]
  | none =>
    refine .stray hquote ?_
    simp only [lexeme, hspace, hstart, hdigit, Bool.false_eq_true, if_false]
    simp [hquote, hline, hblock, hsymbol]

theorem wordKind_ne (word : List Char) :
    wordKind word ≠ .error ∧ wordKind word ≠ .blockComment := by
  unfold wordKind
  split <;> simp

theorem symbol_kind_ne {v : List Char} (h : (c :: v, kind) ∈ symbols) :
    kind ≠ .error ∧ kind ≠ .blockComment ∧ kind.isKeyword = false := by
  have hkinds : ∀ symbol ∈ symbols, symbol.2 ≠ .error ∧ symbol.2 ≠ .blockComment ∧
      symbol.2.isKeyword = false := by decide
  exact hkinds _ h

theorem keyword_spelling {word : Keyword} (h : word.text.toList = c :: v) :
    isIdentStart c = true ∧ ∀ d ∈ v, isIdentPart d = true := by
  have hword : word.text.toList.head?.all isIdentStart = true := by cases word <;> decide
  have hpart : word.text.toList.tail.all isIdentPart = true := by cases word <;> decide
  rw [h] at hword hpart
  exact ⟨hword, List.all_eq_true.mp hpart⟩

theorem length_le_lexeme_of_symbol (h : (c :: v, kind) ∈ symbols) (hv : v <+: cs) :
    v.length ≤ (lexeme c cs).2 ∧ (lexeme c cs).1 ≠ .error := by
  by_cases hline : c = '/' ∧ cs.head? = some '/'
  · -- Only the slash alone is both a symbol and the beginning of a comment.
    obtain ⟨rfl, hhead⟩ := hline
    obtain ⟨ds, rfl⟩ := List.head?_eq_some_iff.mp hhead
    rcases symbol_of_slash h with rfl | rfl
    · rw [lexeme_of_slashes]
      exact ⟨Nat.zero_le _, by simp⟩
    · simp at hv
  by_cases hblock : c = '/' ∧ cs.head? = some '*'
  · obtain ⟨rfl, hhead⟩ := hblock
    obtain ⟨ds, rfl⟩ := List.head?_eq_some_iff.mp hhead
    rcases symbol_of_slash h with rfl | rfl
    · rw [lexeme_of_opening]
      exact ⟨Nat.zero_le _, by simp⟩
    · simp at hv
  obtain ⟨found, hfound, hle⟩ := symbol?_of_mem h (List.cons_prefix_cons.mpr ⟨rfl, hv⟩)
  obtain ⟨u, hword, hmem, -⟩ := exists_of_symbol? hfound
  rw [lexeme_of_symbol hfound hline hblock]
  rw [List.length_cons] at hle
  exact ⟨by omega, (symbol_kind_ne hmem).1⟩

/-- No match of a pattern is longer than the lexeme, which is then no error. -/
theorem Spells.length_le (h : Spells kind c v) (hv : v <+: cs) :
    v.length ≤ (lexeme c cs).2 ∧ (lexeme c cs).1 ≠ .error := by
  have hidentifier {c : Char} {v rest : List Char} (hc : isIdentStart c = true)
      (hv : ∀ d ∈ v, isIdentPart d = true) :
      v.length ≤ (lexeme c (v ++ rest)).2 ∧ (lexeme c (v ++ rest)).1 ≠ .error := by
    rw [lexeme_of_isIdentStart hc]
    exact ⟨length_le_run hv rest, (wordKind_ne _).1⟩
  obtain ⟨rest, rfl⟩ := hv
  cases h with
  | blanks hc hcs =>
    rw [lexeme_of_isSpace hc]
    exact ⟨length_le_run hcs rest, by simp⟩
  | lineComment hcs =>
    rw [List.cons_append, lexeme_of_slashes, ← List.cons_append]
    refine ⟨length_le_run ?_ rest, by simp⟩
    simpa using hcs
  | commentOpening =>
    rw [List.singleton_append, lexeme_of_opening]
    exact ⟨by simp, by simp⟩
  | identifier hc hcs => exact hidentifier hc hcs
  | hexNumber hmark hne hds =>
    rw [lexeme_of_isDigit rfl]
    exact ⟨number_of_hex hmark hne hds, by simp⟩
  | decimalNumber hc hwhole hpart hpower =>
    rw [lexeme_of_isDigit hc]
    exact ⟨(decimal_le hwhole hpart hpower).trans (decimal_le_number _ _), by simp⟩
  | quotedText hquote hparts =>
    rw [lexeme_of_quote hquote, List.append_assoc, List.singleton_append,
      quoted_of_parts hquote hparts]
    exact ⟨by simp, by simp⟩
  | symbol hmem => exact length_le_lexeme_of_symbol hmem (List.prefix_append v rest)
  | keyword hword =>
    obtain ⟨hc, hcs⟩ := keyword_spelling hword
    exact hidentifier hc hcs

theorem spells_wordKind (hc : isIdentStart c = true) (hv : ∀ d ∈ v, isIdentPart d = true) :
    Spells (wordKind (c :: v)) c v := by
  unfold wordKind
  split
  next word hword =>
    refine .keyword ?_
    rw [Keyword.text_of_ofText? hword, String.toList_ofList]
  next => exact .identifier hc hv

/-- A lexeme that is neither an error nor a block comment matches a pattern of its kind. -/
theorem spells_lexeme (hblock : (lexeme c cs).1 ≠ .blockComment)
    (herror : (lexeme c cs).1 ≠ .error) :
    Spells (lexeme c cs).1 c (cs.take (lexeme c cs).2) := by
  cases begins c cs with
  | blank hc =>
    rw [lexeme_of_isSpace hc]
    exact .blanks hc (forall_mem_take_run _ cs)
  | word hc =>
    rw [lexeme_of_isIdentStart hc]
    exact spells_wordKind hc (forall_mem_take_run _ cs)
  | number hc =>
    rw [lexeme_of_isDigit hc]
    exact spells_number hc cs
  | quoted hc =>
    rw [lexeme_of_quote hc] at herror ⊢
    dsimp only at herror ⊢
    split at herror
    next hclosed =>
      obtain ⟨parts, htake, hparts⟩ := exists_parts_of_quoted hclosed
      rw [if_pos hclosed, htake]
      exact .quotedText hc hparts
    next => exact absurd rfl herror
  | lineComment ds hc hcs =>
    subst hc hcs
    have hrun : run (· != '\n') ('/' :: ds) = run (· != '\n') ds + 1 := rfl
    rw [lexeme_of_slashes, hrun]
    refine .lineComment fun d hd => ?_
    simpa using forall_mem_take_run _ ds d hd
  | blockComment ds hc hcs =>
    subst hc hcs
    exact absurd rfl hblock
  | symbol v kind hmem hv heq =>
    rw [heq, ← List.prefix_iff_eq_take.mp hv]
    exact .symbol hmem
  | stray _ heq =>
    rw [heq] at herror
    exact absurd rfl herror

/-- Only a slash and a star begin a block comment. -/
theorem exists_of_blockComment (h : (lexeme c cs).1 = .blockComment) :
    ∃ ds, c = '/' ∧ cs = '*' :: ds := by
  cases begins c cs with
  | blank hc => simp [lexeme_of_isSpace hc] at h
  | word hc =>
    rw [lexeme_of_isIdentStart hc] at h
    exact absurd h (wordKind_ne _).2
  | number hc => simp [lexeme_of_isDigit hc] at h
  | quoted hc =>
    rw [lexeme_of_quote hc] at h
    dsimp only at h
    split at h <;> cases h
  | lineComment ds hc hcs =>
    subst hc hcs
    simp [lexeme_of_slashes] at h
  | blockComment ds hc hcs => exact ⟨ds, hc, hcs⟩
  | symbol v kind hmem _ heq =>
    rw [heq] at h
    exact absurd h (symbol_kind_ne hmem).2.1
  | stray _ heq => simp [heq] at h

theorem kind_lexeme_of_symbol (h : (c :: v, kind) ∈ symbols) : (lexeme c v).1 = kind := by
  have hkinds : ∀ symbol ∈ symbols,
      symbol.1.head?.all (fun c => (lexeme c symbol.1.tail).1 = symbol.2) = true := by decide
  exact of_decide_eq_true (hkinds _ h)

/-- The kind of a word that some pattern matches is that of the pattern, or the word is a keyword
and the pattern that of identifiers. -/
theorem Spells.kind_lexeme (h : Spells kind c v) :
    (lexeme c v).1 = kind ∨ kind = .ident ∧ (lexeme c v).1.isKeyword = true := by
  cases h with
  | blanks hc => exact Or.inl (by rw [lexeme_of_isSpace hc])
  | lineComment => exact Or.inl (by rw [lexeme_of_slashes])
  | commentOpening => exact Or.inl (by rw [lexeme_of_opening])
  | identifier hc =>
    rw [lexeme_of_isIdentStart hc, wordKind]
    split
    next => exact Or.inr ⟨rfl, rfl⟩
    next => exact Or.inl rfl
  | hexNumber => exact Or.inl (by rw [lexeme_of_isDigit rfl])
  | decimalNumber hc => exact Or.inl (by rw [lexeme_of_isDigit hc])
  | quotedText hquote hparts =>
    exact Or.inl (by rw [lexeme_of_quote hquote, quoted_of_parts hquote hparts, if_pos rfl])
  | symbol hmem => exact Or.inl (kind_lexeme_of_symbol hmem)
  | @keyword _ _ word hword =>
    obtain ⟨hc, hcs⟩ := keyword_spelling hword
    have hrun : v.length ≤ run isIdentPart v := by
      simpa using length_le_run hcs []
    refine Or.inl ?_
    rw [lexeme_of_isIdentStart hc, List.take_of_length_le hrun, wordKind, ← hword,
      String.ofList_toList, Keyword.ofText?_text]

/-- An error is a literal that is not closed, or a single character. -/
theorem lexeme_of_error (hquote : ¬ (c = '"' ∨ c = '\'')) (h : (lexeme c cs).1 = .error) :
    lexeme c cs = (.error, 0) := by
  cases begins c cs with
  | blank hc => simp [lexeme_of_isSpace hc] at h
  | word hc =>
    rw [lexeme_of_isIdentStart hc] at h
    exact absurd h (wordKind_ne _).1
  | number hc => simp [lexeme_of_isDigit hc] at h
  | quoted hc => exact absurd hc hquote
  | lineComment ds hc hcs =>
    subst hc hcs
    simp [lexeme_of_slashes] at h
  | blockComment ds hc hcs =>
    subst hc hcs
    simp [lexeme_of_opening] at h
  | symbol v kind hmem _ heq =>
    rw [heq] at h
    exact absurd h (symbol_kind_ne hmem).1
  | stray _ heq => exact heq

/-! ## Cutting behind a lexeme -/

variable {m : Nat}

/-- Two lexemes that match a pattern are of one length if each of them lies in both texts. -/
theorem length_lexeme_take (hm : (lexeme c cs).2 ≤ m)
    (h : Spells (lexeme c cs).1 c (cs.take (lexeme c cs).2))
    (h' : Spells (lexeme c (cs.take m)).1 c ((cs.take m).take (lexeme c (cs.take m)).2)) :
    (lexeme c (cs.take m)).2 = (lexeme c cs).2 := by
  have hle := (h.length_le (List.take_prefix_take_left hm)).1
  have hge := (h'.length_le ((List.take_prefix _ _).trans (List.take_prefix m cs))).1
  have hlength := lexeme_le_length c cs
  have hlength' := lexeme_le_length c (cs.take m)
  rw [List.length_take] at hle hge
  omega

theorem lexeme_take_of_symbol (hmem : (c :: v, kind) ∈ symbols) (hv : v <+: cs)
    (heq : lexeme c cs = (kind, v.length)) (hm : v.length ≤ m) :
    lexeme c (cs.take m) = (kind, v.length) := by
  have hv' : v <+: cs.take m := List.prefix_take_iff.mpr ⟨hv, hm⟩
  have hspells : Spells kind c v := .symbol hmem
  have herror := (hspells.length_le hv').2
  have hblock : (lexeme c (cs.take m)).1 ≠ .blockComment := by
    intro hblock
    obtain ⟨ds, rfl, hds⟩ := exists_of_blockComment hblock
    rw [eq_cons_of_take hds, lexeme_of_opening] at heq
    exact (symbol_kind_ne hmem).2.1 (congrArg Prod.fst heq).symm
  have hcut := spells_lexeme hblock herror
  have hlength : (lexeme c (cs.take m)).2 = v.length := by
    have hsame := length_lexeme_take (by rwa [heq])
      (by rwa [heq, ← List.prefix_iff_eq_take.mp hv]) hcut
    rwa [heq] at hsame
  -- Both kinds are declared for the same characters, and neither is that of a word.
  rw [hlength, ← List.prefix_iff_eq_take.mp hv'] at hcut
  have hkind := kind_lexeme_of_symbol hmem
  rcases hcut.kind_lexeme with hkind' | ⟨-, hkeyword⟩
  · exact Prod.ext (hkind'.symm.trans hkind) hlength
  · rw [hkind, (symbol_kind_ne hmem).2.2] at hkeyword
    cases hkeyword

/-- What stands behind a lexeme can be cut off. -/
theorem lexeme_take (hm : (lexeme c cs).2 ≤ m) : lexeme c (cs.take m) = lexeme c cs := by
  cases begins c cs with
  | blank hc =>
    rw [lexeme_of_isSpace hc] at hm ⊢
    rw [lexeme_of_isSpace hc, run_take hm]
  | word hc =>
    rw [lexeme_of_isIdentStart hc] at hm ⊢
    rw [lexeme_of_isIdentStart hc, run_take hm, List.take_take, Nat.min_eq_left hm]
  | number hc =>
    have hspells (ds : List Char) : Spells (lexeme c ds).1 c (ds.take (lexeme c ds).2) := by
      rw [lexeme_of_isDigit hc]
      exact spells_number hc ds
    refine Prod.ext ?_ (length_lexeme_take hm (hspells _) (hspells _))
    rw [lexeme_of_isDigit hc, lexeme_of_isDigit hc]
  | quoted hc =>
    rw [lexeme_of_quote hc] at hm ⊢
    rw [lexeme_of_quote hc, quoted_take hc cs m hm]
  | lineComment ds hc hcs =>
    subst hc hcs
    rw [lexeme_of_slashes] at hm ⊢
    obtain ⟨m, rfl⟩ := Nat.exists_eq_add_of_le' ((Nat.le_add_left 1 (run _ ds)).trans hm)
    rw [List.take_succ_cons, lexeme_of_slashes, ← List.take_succ_cons, run_take hm]
  | blockComment ds hc hcs =>
    subst hc hcs
    rw [lexeme_of_opening] at hm ⊢
    obtain ⟨m, rfl⟩ := Nat.exists_eq_add_of_le' ((Nat.le_add_left 1 _).trans hm)
    rw [List.take_succ_cons, lexeme_of_opening, commentBody_take (Nat.le_of_succ_le_succ hm)]
  | symbol v kind hmem hv heq =>
    rw [heq] at hm ⊢
    exact lexeme_take_of_symbol hmem hv heq hm
  | stray hquote heq =>
    by_cases herror : (lexeme c (cs.take m)).1 = .error
    · rw [heq, lexeme_of_error hquote herror]
    by_cases hblock : (lexeme c (cs.take m)).1 = .blockComment
    · obtain ⟨ds, rfl, hds⟩ := exists_of_blockComment hblock
      rw [eq_cons_of_take hds, lexeme_of_opening] at heq
      cases heq
    -- What matches in the part matches in the whole.
    have hwhole := (spells_lexeme hblock herror).length_le
      ((List.take_prefix _ _).trans (List.take_prefix m cs))
    rw [heq] at hwhole
    exact absurd rfl hwhole.2

end lexemes

/-! ## Tokens -/

/-- Of the beginnings of a text that some rule matches, `word` is the longest; a rule of the kind
matches it, and so do at most rules of that kind, and that of identifiers if it is a keyword. -/
structure IsLongestMatch (rest word : List Char) (kind : Kind) : Prop where
  begins : word <+: rest
  declared : ∃ rule ∈ tokenRules, rule.kind = kind ∧ word ∈ rule.pattern.language
  longest : ∀ rule ∈ tokenRules, ∀ other ∈ rule.pattern.language, other <+: rest →
    other.length ≤ word.length
  keyword_first : ∀ rule ∈ tokenRules, word ∈ rule.pattern.language →
    rule.kind = kind ∨ rule.kind = .ident ∧ kind.isKeyword = true

/-- `word` is a block comment at the beginning of a text: it ends behind the first `*/` that comes
after its opening, or with the text if there is none. -/
def IsBlockComment (rest word : List Char) : Prop :=
  ∃ inner, rest = '/' :: '*' :: inner ∧
    ((∃ body after, EndsComment inner body after ∧
        word = '/' :: '*' :: (body ++ ['*', '/'])) ∨
      (∀ body after, inner ≠ body ++ '*' :: '/' :: after) ∧ word = rest)

def NoMatch (rest : List Char) : Prop :=
  ∀ rule ∈ tokenRules, ∀ word ∈ rule.pattern.language, word <+: rest → word = []

section tokens

variable {c : Char} {cs : List Char}

theorem isLongestMatch_lexeme (hblock : (lexeme c cs).1 ≠ .blockComment)
    (herror : (lexeme c cs).1 ≠ .error) :
    IsLongestMatch (c :: cs) (c :: cs.take (lexeme c cs).2) (lexeme c cs).1 where
  begins := List.cons_prefix_cons.mpr ⟨rfl, List.take_prefix _ cs⟩
  declared := (spells_lexeme hblock herror).exists_rule
  longest rule hrule other hother hbegins := by
    cases other with
    | nil => exact Nat.zero_le _
    | cons d v =>
      obtain ⟨rfl, hv⟩ := List.cons_prefix_cons.mp hbegins
      have hle := ((spells_of_mem_tokenRules hrule hother).length_le hv).1
      have hlength := lexeme_le_length d cs
      rw [List.length_cons, List.length_cons, List.length_take]
      omega
  keyword_first rule hrule hword := by
    have hkind := (spells_of_mem_tokenRules hrule hword).kind_lexeme
    rw [lexeme_take (Nat.le_refl _)] at hkind
    exact hkind.imp_left Eq.symm

theorem isBlockComment_lexeme (h : (lexeme c cs).1 = .blockComment) :
    IsBlockComment (c :: cs) (c :: cs.take (lexeme c cs).2) := by
  obtain ⟨ds, rfl, rfl⟩ := exists_of_blockComment h
  rw [lexeme_of_opening, List.take_succ_cons]
  refine ⟨ds, rfl, ?_⟩
  rcases commentBody_cases ds with ⟨body, after, hends, hlength⟩ | ⟨hnone, hlength⟩
  · refine Or.inl ⟨body, after, hends, ?_⟩
    rw [hlength, hends.split]
    simp [List.take_append]
  · exact Or.inr ⟨hnone, by rw [hlength, List.take_length]⟩

theorem lexeme_eq_error_iff : (lexeme c cs).1 = .error ↔ NoMatch (c :: cs) := by
  constructor
  · intro herror rule hrule word hword hbegins
    cases word with
    | nil => rfl
    | cons d v =>
      obtain ⟨rfl, hv⟩ := List.cons_prefix_cons.mp hbegins
      exact absurd herror ((spells_of_mem_tokenRules hrule hword).length_le hv).2
  · intro hnone
    by_contra herror
    by_cases hblock : (lexeme c cs).1 = .blockComment
    · obtain ⟨ds, rfl, rfl⟩ := exists_of_blockComment hblock
      obtain ⟨rule, hrule, -, hword⟩ := Spells.commentOpening.exists_rule
      simpa using hnone rule hrule _ hword ⟨ds, rfl⟩
    · obtain ⟨hbegins, ⟨rule, hrule, -, hword⟩, -⟩ := isLongestMatch_lexeme hblock herror
      simpa using hnone rule hrule _ hword hbegins

/-- A token is the first one of what is left of the text at its place. -/
theorem exists_first_of_mem_tokensFrom {start : Nat} {t : Token} (h : t ∈ tokensFrom start cs) :
    ∃ front c rest, cs = front ++ c :: rest ∧
      t = Token.first (start + byteLength front) c rest := by
  fun_induction tokensFrom start cs with
  | case1 => simp at h
  | case2 start c cs ih =>
    rcases List.mem_cons.mp h with rfl | h
    · exact ⟨[], c, cs, rfl, rfl⟩
    · obtain ⟨front, d, rest, hcs, ht⟩ := ih h
      refine ⟨c :: cs.take (lexeme c cs).2 ++ front, d, rest, ?_, ?_⟩
      · rw [List.append_assoc, ← hcs, List.cons_append, List.take_append_drop]
      · rw [ht, byteLength_append, ← Nat.add_assoc]
        rfl

end tokens

/-- Every token is the longest match at its place. If it is neither a block comment nor an error,
it is the longest beginning of the rest of the text that a declared pattern matches, and its kind
is that of such a pattern, a keyword before an identifier; a block comment ends behind the first
`*/` after its opening, or with the text; and a token is an error exactly where no pattern matches
anything. -/
theorem tokenize_longest_match {text : String} {t : Token} (h : t ∈ tokenize text) :
    ∃ front rest, text.toList = front ++ rest ∧ t.range.start = byteLength front ∧
      t.text.toList <+: rest ∧
      (t.kind ≠ .blockComment → t.kind ≠ .error → IsLongestMatch rest t.text.toList t.kind) ∧
      (t.kind = .blockComment → IsBlockComment rest t.text.toList) ∧
      (t.kind = .error ↔ NoMatch rest) := by
  obtain ⟨front, c, cs, htext, rfl⟩ := exists_first_of_mem_tokensFrom h
  have hchars : (Token.first (0 + byteLength front) c cs).text.toList =
      c :: cs.take (lexeme c cs).2 := String.toList_ofList
  rw [hchars]
  exact ⟨front, c :: cs, htext, Nat.zero_add _,
    List.cons_prefix_cons.mpr ⟨rfl, List.take_prefix _ cs⟩, isLongestMatch_lexeme,
    isBlockComment_lexeme, lexeme_eq_error_iff⟩

-- A number gives back a point that no digit follows.
theorem tokenize_longest_match_point :
    (⟨.number, "1", ⟨2, 3⟩⟩ : Token) ∈ tokenize "x 1.e5" ∧
      ∃ front rest, "x 1.e5".toList = front ++ rest ∧ 2 = byteLength front ∧
        ['1'] <+: rest ∧
        ((.number : Kind) ≠ .blockComment → (.number : Kind) ≠ .error →
          IsLongestMatch rest ['1'] .number) ∧
        ((.number : Kind) = .blockComment → IsBlockComment rest ['1']) ∧
        ((.number : Kind) = .error ↔ NoMatch rest) := by
  have h : (⟨.number, "1", ⟨2, 3⟩⟩ : Token) ∈ tokenize "x 1.e5" := by decide +kernel
  exact ⟨h, tokenize_longest_match h⟩

end SolidityCompass
