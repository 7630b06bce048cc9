import SolidityCompass.Proofs.LongestMatch

/-!
# Cutting a text at a token

A text that is cut at either end of one of its tokens keeps all of its tokens: those of the first
part are the tokens up to the cut, and those of the second part are the tokens behind it, moved
back to the beginning. A token was chosen by what stands behind it too, but a lexeme that fits in
the first part is chosen there again (`lexeme_take`).
-/

namespace SolidityCompass

def ByteRange.shift (offset : Nat) (range : ByteRange) : ByteRange :=
  ⟨range.start + offset, range.stop + offset⟩

/-- The token as it stands in a text that has `offset` bytes more before it. -/
def Token.shift (offset : Nat) (t : Token) : Token :=
  { t with range := t.range.shift offset }

theorem Token.shift_first (offset start : Nat) (c : Char) (cs : List Char) :
    (Token.first start c cs).shift offset = Token.first (start + offset) c cs := by
  simp only [Token.shift, ByteRange.shift, Token.first, Token.mk.injEq, ByteRange.mk.injEq,
    true_and]
  omega

theorem tokensFrom_add (offset start : Nat) (cs : List Char) :
    tokensFrom (start + offset) cs = (tokensFrom start cs).map (Token.shift offset) := by
  fun_induction tokensFrom start cs with
  | case1 => rw [tokensFrom, List.map_nil]
  | case2 start c cs ih =>
    rw [List.map_cons, Token.shift_first, ← ih, ← Token.shift_first, tokensFrom,
      ← Token.shift_first]
    rfl

/-- The first lexeme of a text is read again wherever what follows it is cut off. -/
theorem tokensFrom_cut (start : Nat) (c : Char) (cs : List Char) {front back : List Char}
    (h : cs.drop (lexeme c cs).2 = front ++ back) :
    tokensFrom start (c :: (cs.take (lexeme c cs).2 ++ front)) =
      Token.first start c cs :: tokensFrom (Token.first start c cs).range.stop front := by
  have hlength : (cs.take (lexeme c cs).2).length = (lexeme c cs).2 :=
    List.length_take_of_le (lexeme_le_length c cs)
  have hlexeme : lexeme c (cs.take (lexeme c cs).2 ++ front) = lexeme c cs := by
    have hcut : cs.take ((lexeme c cs).2 + front.length) = cs.take (lexeme c cs).2 ++ front := by
      rw [List.take_add, h, List.take_left]
    rw [← hcut]
    exact lexeme_take (Nat.le_add_right _ _)
  have hfirst : Token.first start c (cs.take (lexeme c cs).2 ++ front) =
      Token.first start c cs := by
    simp only [Token.first, hlexeme, List.take_left' hlength]
  rw [tokensFrom, hfirst, hlexeme, List.drop_left' hlength]

/-- Where the tokens of a text are parted, the text is parted into two texts with these tokens. -/
theorem exists_cut_of_tokensFrom {start : Nat} {cs : List Char} {before after : List Token}
    (h : tokensFrom start cs = before ++ after) :
    ∃ front back, cs = front ++ back ∧ tokensFrom start front = before ∧
      tokensFrom (start + byteLength front) back = after := by
  induction before generalizing start cs with
  | nil => exact ⟨[], cs, rfl, by rw [tokensFrom], h⟩
  | cons t before ih =>
    cases cs with
    | nil => simp [tokensFrom] at h
    | cons c cs =>
      rw [tokensFrom, List.cons_append] at h
      obtain ⟨rfl, hrest⟩ := List.cons.inj h
      obtain ⟨front, back, hcs, hfront, hback⟩ := ih hrest
      refine ⟨c :: (cs.take (lexeme c cs).2 ++ front), back, ?_, ?_, ?_⟩
      · rw [List.cons_append, List.append_assoc, ← hcs, List.take_append_drop]
      · rw [tokensFrom_cut start c cs hcs, hfront]
      · rw [← List.cons_append, byteLength_append, ← Nat.add_assoc]
        exact hback

section cut

variable {text : String} {front back : List Char}

theorem toList_extract_before (htext : text.toList = front ++ back) :
    (String.Pos.Raw.extract text 0 ⟨byteLength front⟩).toList = front := by
  have hslice : IsSlice text ⟨0, byteLength front⟩ (String.ofList front) :=
    ⟨[], back, by simpa using htext, by simp⟩
  have hextract : String.Pos.Raw.extract text 0 ⟨byteLength front⟩ = String.ofList front :=
    hslice.extract_eq
  rw [hextract, String.toList_ofList]

theorem toList_extract_behind (htext : text.toList = front ++ back) :
    (String.Pos.Raw.extract text ⟨byteLength front⟩ text.rawEndPos).toList = back := by
  have hslice : IsSlice text ⟨byteLength front, text.utf8ByteSize⟩ (String.ofList back) :=
    ⟨front, [], by simpa using htext, by simp [utf8ByteSize_eq_byteLength, htext]⟩
  have hextract : String.Pos.Raw.extract text ⟨byteLength front⟩ text.rawEndPos =
      String.ofList back := hslice.extract_eq
  rw [hextract, String.toList_ofList]

end cut

/-- Lexing splits at token boundaries. A text cut at either end of one of its tokens has the
tokens of its two parts, those of the second part moved on by the length of the first. -/
theorem tokenize_cut {text : String} {t : Token} (ht : t ∈ tokenize text) {e : Nat}
    (he : e = t.range.start ∨ e = t.range.stop) :
    tokenize text = tokenize (String.Pos.Raw.extract text 0 ⟨e⟩) ++
      (tokenize (String.Pos.Raw.extract text ⟨e⟩ text.rawEndPos)).map (Token.shift e) := by
  -- The cut parts the tokens either before `t` or behind it.
  obtain ⟨before, after, hsplit, hat⟩ : ∃ before after, tokenize text = before ++ after ∧
      ((after.head? = some t ∧ e = t.range.start) ∨
        (before.getLast? = some t ∧ e = t.range.stop)) := by
    obtain ⟨before, after, hsplit⟩ := List.append_of_mem ht
    rcases he with he | he
    · exact ⟨before, t :: after, hsplit, Or.inl ⟨rfl, he⟩⟩
    · exact ⟨before ++ [t], after, by rw [hsplit, List.append_assoc]; rfl,
        Or.inr ⟨List.getLast?_concat, he⟩⟩
  obtain ⟨front, back, htext, hfront, hback⟩ := exists_cut_of_tokensFrom hsplit
  have hlength : e = byteLength front := by
    rcases hat with ⟨hhead, rfl⟩ | ⟨hlast, rfl⟩
    · rw [← hback] at hhead
      rw [start_of_head?_tokensFrom hhead, Nat.zero_add]
    · rw [← hfront] at hlast
      rw [stop_of_getLast?_tokensFrom hlast, Nat.zero_add]
  rw [hsplit, ← hfront, ← hback, hlength, tokenize, tokenize,
    toList_extract_before htext, toList_extract_behind htext, tokensFrom_add]

-- The cut stands between an unclosed string and the line feed that ends it.
theorem tokenize_cut_unclosed :
    (⟨.error, "'é", ⟨2, 5⟩⟩ : Token) ∈ tokenize "= 'é\n1.e5/*" ∧
      (5 : Nat) = (⟨2, 5⟩ : ByteRange).stop ∧
      tokenize "= 'é\n1.e5/*" =
        tokenize (String.Pos.Raw.extract "= 'é\n1.e5/*" 0 ⟨5⟩) ++
          (tokenize (String.Pos.Raw.extract "= 'é\n1.e5/*" ⟨5⟩
            "= 'é\n1.e5/*".rawEndPos)).map (Token.shift 5) := by
  have ht : (⟨.error, "'é", ⟨2, 5⟩⟩ : Token) ∈ tokenize "= 'é\n1.e5/*" := by decide +kernel
  exact ⟨ht, rfl, tokenize_cut ht (Or.inr rfl)⟩

end SolidityCompass
