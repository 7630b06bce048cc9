import SolidityCompass.Proofs.Tiling
import SolidityCompass.Proofs.TokenPatterns

/-!
# Scanners and their patterns

Each scanner of the lexer is compared with the pattern that it stands for: what it takes is a
match, and no match is longer. A scanner that stops within the first `m` characters takes the same
of these characters alone, so what stands behind a lexeme can be cut off.
-/

namespace SolidityCompass

open Lexeme

section scanners

variable {p : Char → Bool} {c quote : Char} {cs ds rest : List Char} {m : Nat}

theorem length_le_run (hds : ∀ d ∈ ds, p d = true) (rest : List Char) :
    ds.length ≤ run p (ds ++ rest) := by
  rw [run, List.takeWhile_append_of_pos hds, List.length_append]
  exact Nat.le_add_right _ _

theorem run_of_stop (hds : ∀ d ∈ ds, p d = true) (hc : p c = false) :
    run p (ds ++ c :: rest) = ds.length := by
  rw [run, List.takeWhile_append_of_pos hds, List.takeWhile_cons_of_neg (by simp [hc]),
    List.append_nil]

theorem forall_mem_take_run (p : Char → Bool) (cs : List Char) :
    ∀ d ∈ cs.take (run p cs), p d = true := by
  rw [run, ← List.prefix_iff_eq_take.mp (List.takeWhile_prefix p)]
  exact List.all_eq_true.mp List.all_takeWhile

theorem take_run_ne_nil (h : run p cs ≠ 0) : cs.take (run p cs) ≠ [] := by
  intro hnil
  rw [run, ← List.prefix_iff_eq_take.mp (List.takeWhile_prefix p)] at hnil
  exact h (by rw [run, hnil, List.length_nil])

theorem run_take (h : run p cs ≤ m) : run p (cs.take m) = run p cs := by
  induction cs generalizing m with
  | nil => simp
  | cons c cs ih =>
    cases hc : p c with
    | false => cases m <;> simp [run, hc]
    | true =>
      have hrun (ds : List Char) : run p (c :: ds) = run p ds + 1 := by simp [run, hc]
      rw [hrun] at h ⊢
      obtain ⟨m, rfl⟩ := Nat.exists_eq_add_of_le' ((Nat.le_add_left 1 _).trans h)
      rw [List.take_succ_cons, hrun, ih (Nat.le_of_succ_le_succ h)]

theorem eq_cons_of_take (h : cs.take m = c :: ds) : cs = c :: (ds ++ cs.drop m) := by
  rw [← List.cons_append, ← h, List.take_append_drop]

/-! ## Numbers -/

theorem isFraction_take (cs : List Char) : IsFraction (cs.take (fraction cs)) := by
  unfold fraction
  split
  next ds =>
    split
    next => exact Or.inl rfl
    next hrun => exact Or.inr ⟨_, rfl, take_run_ne_nil hrun, forall_mem_take_run _ ds⟩
  next => exact Or.inl rfl

theorem fraction_le (h : IsFraction ds) (rest : List Char) :
    ds.length ≤ fraction (ds ++ rest) := by
  rcases h with rfl | ⟨es, rfl, hne, hes⟩
  · exact Nat.zero_le _
  · have hle := length_le_run hes rest
    have hpos := List.length_pos_iff.mpr hne
    rw [List.cons_append, fraction, if_neg (by omega), List.length_cons]
    omega

/-- A fraction ends before a character that is neither a point nor a digit. -/
theorem fraction_of_stop (h : IsFraction ds) (hc : isDigitPart c = false) (hpoint : c ≠ '.') :
    fraction (ds ++ c :: rest) = ds.length := by
  rcases h with rfl | ⟨es, rfl, hne, hes⟩
  · simp [fraction, hpoint]
  · have hpos := List.length_pos_iff.mpr hne
    rw [List.cons_append, fraction, run_of_stop hes hc, if_neg (by omega), List.length_cons]

theorem isExponent_take (cs : List Char) : IsExponent (cs.take (exponent cs)) := by
  unfold exponent
  split
  next mark ds =>
    split
    next h =>
      simp only [Bool.and_eq_true, Bool.or_eq_true, decide_eq_true_eq, bne_iff_ne] at h
      exact Or.inr ⟨mark, ['-'], _, rfl, h.1, Or.inr rfl, take_run_ne_nil h.2,
        forall_mem_take_run _ ds⟩
    next => exact Or.inl rfl
  next mark ds _ =>
    split
    next h =>
      simp only [Bool.and_eq_true, Bool.or_eq_true, decide_eq_true_eq, bne_iff_ne] at h
      exact Or.inr ⟨mark, [], _, rfl, h.1, Or.inl rfl, take_run_ne_nil h.2,
        forall_mem_take_run _ ds⟩
    next => exact Or.inl rfl
  next => exact Or.inl rfl

theorem exponent_le (h : IsExponent ds) (rest : List Char) :
    ds.length ≤ exponent (ds ++ rest) := by
  rcases h with rfl | ⟨mark, sign, es, rfl, hmark, hsign, hne, hes⟩
  · exact Nat.zero_le _
  · have hle := length_le_run hes rest
    have hpos := List.length_pos_iff.mpr hne
    have hguard : ((mark = 'e' || mark = 'E') && run isDigitPart (es ++ rest) != 0) = true := by
      simp only [Bool.and_eq_true, Bool.or_eq_true, decide_eq_true_eq, bne_iff_ne]
      exact ⟨hmark, by omega⟩
    rcases hsign with rfl | rfl
    · obtain ⟨d, es, rfl⟩ := List.exists_cons_of_ne_nil hne
      have hminus : d ≠ '-' := by
        rintro rfl
        exact absurd (hes '-' (by simp)) (by decide)
      rw [List.nil_append, List.cons_append, exponent, if_pos hguard]
      · simp only [List.length_cons] at hle ⊢
        omega
      · rintro _ heq
        exact hminus (List.cons.inj heq).1
    · rw [List.singleton_append, List.cons_append, List.cons_append, exponent, if_pos hguard]
      simp only [List.length_cons]
      omega

theorem isDecimal_take (cs : List Char) :
    ∃ whole part power, cs.take (decimal cs) = whole ++ (part ++ power) ∧
      (∀ d ∈ whole, isDigitPart d = true) ∧ IsFraction part ∧ IsExponent power := by
  refine ⟨_, _, _, ?_, forall_mem_take_run isDigitPart cs,
    isFraction_take (cs.drop (run isDigitPart cs)),
    isExponent_take (cs.drop (run isDigitPart cs + fraction (cs.drop (run isDigitPart cs))))⟩
  unfold decimal
  rw [List.take_add, List.take_add, List.append_assoc]

/-- What follows the whole part of a number is no digit. -/
theorem append_cases {part power : List Char} (hpart : IsFraction part)
    (hpower : IsExponent power) :
    part ++ power = [] ∨ ∃ d ds, part ++ power = d :: ds ∧ isDigitPart d = false := by
  rcases hpart with rfl | ⟨ds, rfl, -⟩
  · rcases hpower with rfl | ⟨mark, sign, ds, rfl, hmark, -⟩
    · exact Or.inl rfl
    · exact Or.inr ⟨mark, sign ++ ds, rfl, by rcases hmark with rfl | rfl <;> rfl⟩
  · exact Or.inr ⟨'.', ds ++ power, rfl, rfl⟩

theorem decimal_le {whole part power : List Char} (hwhole : ∀ d ∈ whole, isDigitPart d = true)
    (hpart : IsFraction part) (hpower : IsExponent power) :
    (whole ++ (part ++ power)).length ≤ decimal (whole ++ (part ++ power) ++ rest) := by
  rcases append_cases hpart hpower with hnil | ⟨d, ds, hcons, hd⟩
  · have hle := length_le_run hwhole rest
    rw [hnil, List.append_nil]
    unfold decimal
    dsimp only
    omega
  · have hrun : run isDigitPart (whole ++ (part ++ power) ++ rest) = whole.length := by
      rw [hcons, List.append_assoc, List.cons_append, run_of_stop hwhole hd]
    -- Where an exponent follows, the fraction is read to its end and no further.
    have hexponent : part.length + power.length ≤ fraction (part ++ power ++ rest) +
        exponent ((part ++ power ++ rest).drop (fraction (part ++ power ++ rest))) := by
      rcases hpower with rfl | ⟨mark, sign, es, rfl, hmark, hmore⟩
      · have hle := fraction_le hpart rest
        rw [List.append_nil, List.length_nil]
        omega
      · have hstop : fraction (part ++ mark :: (sign ++ es) ++ rest) = part.length := by
          rw [List.append_assoc, List.cons_append]
          rcases hmark with rfl | rfl
          · exact fraction_of_stop hpart rfl (by decide)
          · exact fraction_of_stop hpart rfl (by decide)
        have hle := exponent_le (Or.inr ⟨mark, sign, es, rfl, hmark, hmore⟩) rest
        rw [hstop, List.append_assoc, List.drop_left]
        omega
    have hdrop : (whole ++ (part ++ power) ++ rest).drop whole.length = part ++ power ++ rest := by
      rw [List.append_assoc, List.drop_left]
    unfold decimal
    dsimp only
    rw [hrun, ← List.drop_drop, hdrop]
    simp only [List.length_append]
    omega

/-- No decimal number goes on with the mark of a hexadecimal one. -/
theorem decimal_of_mark (h : c = 'x' ∨ c = 'X') : decimal (c :: cs) = 0 := by
  have hrun : run isDigitPart (c :: cs) = 0 := by
    rcases h with rfl | rfl <;> simp [run, isDigitPart]
  have hfraction : fraction (c :: cs) = 0 := by
    rcases h with rfl | rfl <;> simp [fraction]
  have hexponent : exponent (c :: cs) = 0 := by
    have hmark : ¬ (c = 'e' ∨ c = 'E') := by
      rcases h with rfl | rfl <;> decide
    cases cs with
    | nil => simp [exponent, run]
    | cons d ds => by_cases hd : d = '-' <;> simp [exponent, hd, hmark]
  simp [decimal, hrun, hfraction, hexponent]

theorem decimal_le_number (c : Char) (cs : List Char) : decimal cs ≤ number c cs := by
  cases cs with
  | nil => exact Nat.le_refl _
  | cons mark ds =>
    unfold number
    dsimp only
    split
    next h =>
      simp only [Bool.and_eq_true, Bool.or_eq_true, decide_eq_true_eq] at h
      rw [decimal_of_mark h.1.2]
      exact Nat.zero_le _
    next => exact Nat.le_refl _

theorem number_of_hex {mark : Char} (hmark : mark = 'x' ∨ mark = 'X') (hne : ds ≠ [])
    (hds : ∀ d ∈ ds, isHexPart d = true) :
    (mark :: ds).length ≤ number '0' (mark :: ds ++ rest) := by
  have hle := length_le_run hds rest
  have hpos := List.length_pos_iff.mpr hne
  rw [List.cons_append, number, if_pos, List.length_cons]
  · omega
  · simp only [Bool.and_eq_true, Bool.or_eq_true, decide_eq_true_eq, bne_iff_ne, true_and]
    exact ⟨hmark, by omega⟩

theorem spells_number (hc : c.isDigit = true) (cs : List Char) :
    Spells .number c (cs.take (number c cs)) := by
  have hdecimal (cs : List Char) : Spells .number c (cs.take (decimal cs)) := by
    obtain ⟨whole, part, power, htake, hwhole, hpart, hpower⟩ := isDecimal_take cs
    rw [htake]
    exact .decimalNumber hc hwhole hpart hpower
  cases cs with
  | nil => exact hdecimal []
  | cons mark ds =>
    unfold number
    dsimp only
    split
    next h =>
      simp only [Bool.and_eq_true, Bool.or_eq_true, decide_eq_true_eq, bne_iff_ne] at h
      obtain ⟨⟨rfl, hmark⟩, hrun⟩ := h
      exact .hexNumber hmark (take_run_ne_nil hrun) (forall_mem_take_run _ ds)
    next => exact hdecimal (mark :: ds)

/-! ## String literals -/

theorem quoted_of_parts (hquote : quote = '"' ∨ quote = '\'') {parts : List (List Char)}
    (hparts : ∀ part ∈ parts, IsStringPart quote part) :
    quoted quote (parts.flatten ++ quote :: rest) = (parts.flatten.length + 1, true) := by
  induction parts with
  | nil => rcases hquote with rfl | rfl <;> simp [quoted]
  | cons part parts ih =>
    obtain ⟨hpart, hmore⟩ := List.forall_mem_cons.mp hparts
    have htail := ih hmore
    rcases hpart with ⟨c, rfl, hne, hescape, hreturn, hline⟩ | ⟨c, rfl, hline⟩
    · rw [List.flatten_cons, List.singleton_append, List.cons_append, quoted]
      · simp [hne, hescape, hreturn, hline, htail]
      · exact fun _ _ h => absurd h hescape
    · rw [List.flatten_cons, List.cons_append, List.singleton_append, List.cons_append,
        List.cons_append, quoted, if_neg hline]
      simp [htail]

/-- A literal that is closed is made of parts between its quotes. -/
theorem exists_parts_of_quoted (h : (quoted quote cs).2 = true) :
    ∃ parts : List (List Char), cs.take (quoted quote cs).1 = parts.flatten ++ [quote] ∧
      ∀ part ∈ parts, IsStringPart quote part := by
  fun_induction quoted quote cs with
  | case1 => simp at h
  | case2 => simp at h
  | case3 escaped cs hline tail ih =>
    obtain ⟨parts, htake, hparts⟩ := ih h
    refine ⟨['\\', escaped] :: parts, ?_, List.forall_mem_cons.mpr ⟨Or.inr ⟨_, rfl, hline⟩, hparts⟩⟩
    rw [List.take_succ_cons, List.take_succ_cons, htake]
    rfl
  | case4 cs => exact ⟨[], by simp, by simp⟩
  | case5 => simp at h
  | case6 c cs _ hne hother tail ih =>
    obtain ⟨parts, htake, hparts⟩ := ih h
    simp only [Bool.or_eq_true, decide_eq_true_eq, not_or] at hother
    refine ⟨[c] :: parts, ?_, List.forall_mem_cons.mpr
      ⟨Or.inl ⟨c, rfl, hne, hother.1.1, hother.1.2, hother.2⟩, hparts⟩⟩
    rw [List.take_succ_cons, htake]
    rfl

theorem quoted_take (hquote : quote = '"' ∨ quote = '\'') (cs : List Char) :
    ∀ m, (quoted quote cs).1 ≤ m → quoted quote (cs.take m) = quoted quote cs := by
  fun_induction quoted quote cs with
  | case1 => simp [quoted]
  | case2 cs =>
    intro m _
    have hne : '\\' ≠ quote := by rcases hquote with rfl | rfl <;> decide
    rcases m with _ | _ | m <;> simp [quoted, hne]
  | case3 escaped cs hline tail ih =>
    intro m h
    obtain ⟨m, rfl⟩ := Nat.exists_eq_add_of_le' ((Nat.le_add_left 2 _).trans h)
    rw [List.take_succ_cons, List.take_succ_cons, quoted, if_neg hline,
      ih m (Nat.le_of_add_le_add_right h)]
  | case4 cs hlast =>
    intro m h
    obtain ⟨m, rfl⟩ := Nat.exists_eq_add_of_le' h
    rw [List.take_succ_cons, quoted, if_pos rfl]
    exact fun escaped ds hc hds => hlast escaped _ hc (eq_cons_of_take hds)
  | case5 c cs hlast hne hother =>
    intro m _
    cases m with
    | zero => rfl
    | succ m =>
      rw [List.take_succ_cons, quoted, if_neg hne, if_pos hother]
      exact fun escaped ds hc hds => hlast escaped _ hc (eq_cons_of_take hds)
  | case6 c cs hlast hne hother tail ih =>
    intro m h
    obtain ⟨m, rfl⟩ := Nat.exists_eq_add_of_le' ((Nat.le_add_left 1 _).trans h)
    rw [List.take_succ_cons, quoted, if_neg hne, if_neg hother,
      ih m (Nat.le_of_add_le_add_right h)]
    exact fun escaped ds hc hds => hlast escaped _ hc (eq_cons_of_take hds)

/-! ## Block comments -/

/-- `body` is what stands before the first `*/` of a text. -/
structure EndsComment (text body after : List Char) : Prop where
  split : text = body ++ '*' :: '/' :: after
  first : ∀ body' after', text = body' ++ '*' :: '/' :: after' → body.length ≤ body'.length

theorem commentBody_cases (cs : List Char) :
    (∃ body after, EndsComment cs body after ∧ commentBody cs = body.length + 2) ∨
      (∀ body after, cs ≠ body ++ '*' :: '/' :: after) ∧ commentBody cs = cs.length := by
  fun_induction commentBody cs with
  | case1 => exact Or.inr ⟨by simp, rfl⟩
  | case2 cs => exact Or.inl ⟨[], cs, ⟨rfl, fun _ _ _ => Nat.zero_le _⟩, rfl⟩
  | case3 c cs hopen ih =>
    -- The first character does not begin a `*/`, so every `*/` lies behind it.
    have hbehind {body after : List Char} (h : c :: cs = body ++ '*' :: '/' :: after) :
        ∃ ds, body = c :: ds ∧ cs = ds ++ '*' :: '/' :: after := by
      cases body with
      | nil =>
        obtain ⟨rfl, rfl⟩ := List.cons.inj h
        exact absurd rfl (hopen after rfl)
      | cons d ds =>
        obtain ⟨rfl, rfl⟩ := List.cons.inj h
        exact ⟨ds, rfl, rfl⟩
    rcases ih with ⟨body, after, hends, hlength⟩ | ⟨hnone, hlength⟩
    · refine Or.inl ⟨c :: body, after, ⟨by rw [hends.split]; rfl, ?_⟩, by rw [hlength]; rfl⟩
      intro body' after' h
      obtain ⟨ds, rfl, hds⟩ := hbehind h
      exact Nat.succ_le_succ (hends.first ds after' hds)
    · refine Or.inr ⟨fun body after h => ?_, by rw [hlength]; rfl⟩
      obtain ⟨ds, -, hds⟩ := hbehind h
      exact hnone ds after hds

theorem commentBody_take (h : commentBody cs ≤ m) : commentBody (cs.take m) = commentBody cs := by
  fun_induction commentBody cs generalizing m with
  | case1 => simp [commentBody]
  | case2 cs =>
    obtain ⟨m, rfl⟩ := Nat.exists_eq_add_of_le' h
    rfl
  | case3 c cs hopen ih =>
    obtain ⟨m, rfl⟩ := Nat.exists_eq_add_of_le' ((Nat.le_add_left 1 _).trans h)
    rw [List.take_succ_cons, commentBody, ih (Nat.le_of_add_le_add_right h)]
    exact fun ds hc hds => hopen _ hc (eq_cons_of_take hds)

/-! ## Symbols -/

/-- In a list in descending order, the first hit stands before all others. -/
theorem find?_eq_some_of_pairwise {α : Type} {r : α → α → Prop} {q : α → Bool} {xs : List α}
    (hxs : xs.Pairwise r) (hrefl : ∀ x, r x x) {x : α} (hx : x ∈ xs) (hq : q x = true) :
    ∃ y, xs.find? q = some y ∧ r y x := by
  induction hxs with
  | nil => simp at hx
  | @cons y ys hy _ ih =>
    cases hhit : q y with
    | true =>
      refine ⟨y, List.find?_cons_of_pos hhit, ?_⟩
      rcases List.mem_cons.mp hx with rfl | hx
      · exact hrefl x
      · exact hy x hx
    | false =>
      rcases List.mem_cons.mp hx with rfl | hx
      · simp [hq] at hhit
      · obtain ⟨z, hz, hle⟩ := ih hx
        exact ⟨z, by rw [List.find?_cons_of_neg (by simp [hhit]), hz], hle⟩

theorem symbol?_of_mem {word : List Char} {kind : Kind} (h : (word, kind) ∈ symbols)
    (hword : word <+: cs) :
    ∃ found, symbol? cs = some found ∧ word.length ≤ found.1.length := by
  have hsorted : symbols.Pairwise fun a b => b.1.length ≤ a.1.length := by decide
  exact find?_eq_some_of_pairwise hsorted (fun _ => Nat.le_refl _) h
    (List.isPrefixOf_iff_prefix.mpr hword)

theorem exists_of_symbol? {word : List Char} {kind : Kind}
    (h : symbol? (c :: cs) = some (word, kind)) :
    ∃ v, word = c :: v ∧ (c :: v, kind) ∈ symbols ∧ v <+: cs := by
  have hne : ∀ symbol ∈ symbols, symbol.1 ≠ [] := by decide
  have hmem := List.mem_of_find?_eq_some h
  have hinit := List.find?_some h
  rw [List.isPrefixOf_iff_prefix] at hinit
  obtain ⟨d, v, rfl⟩ := List.exists_cons_of_ne_nil (hne _ hmem)
  obtain ⟨rfl, hv⟩ := List.cons_prefix_cons.mp hinit
  exact ⟨v, rfl, hmem, hv⟩

/-- No symbol begins with a character that begins a word, a number, a string or white space. -/
theorem first_of_symbol {kind : Kind} (h : (c :: cs, kind) ∈ symbols) :
    isSpace c = false ∧ isIdentStart c = false ∧ c.isDigit = false ∧
      (c = '"' || c = '\'') = false := by
  have hfirst : ∀ symbol ∈ symbols, symbol.1.head?.all (fun c => !isSpace c && !isIdentStart c &&
      !c.isDigit && !(c = '"' || c = '\'')) = true := by decide
  simpa [and_assoc] using hfirst _ h

/-- No symbol begins as a comment does. -/
theorem symbol_of_slash {kind : Kind} (h : ('/' :: cs, kind) ∈ symbols) : cs = [] ∨ cs = ['='] := by
  have hslash : ∀ symbol ∈ symbols, symbol.1.head? = some '/' →
      symbol.1.tail = [] ∨ symbol.1.tail = ['='] := by decide
  exact hslash _ h rfl

end scanners

end SolidityCompass
