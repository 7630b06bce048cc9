import Mathlib.Data.List.Chain
import Mathlib.Data.String.Basic
import SolidityCompass.Proofs.Ranges
import SolidityCompass.Proofs.Spelling

/-!
# Tokens tile the text

Lexing loses nothing. The tokens of a text start at its first byte, each of them starts where the
one before it stops, and the last one stops with the text. A lexeme never asks for more characters
than there are, so every token is the whole lexeme that begins at its place, and it is what the
text holds at its range.
-/

namespace SolidityCompass

namespace Lexeme

theorem quoted_le_length (quote : Char) (cs : List Char) : (quoted quote cs).1 ≤ cs.length := by
  fun_induction quoted quote cs with
  | case1 => exact Nat.le_refl _
  | case2 => exact Nat.zero_le _
  | case3 escaped cs _ tail ih =>
    simp only [tail, List.length_cons]
    omega
  | case4 => simp
  | case5 => exact Nat.zero_le _
  | case6 c cs _ _ _ tail ih =>
    simp only [tail, List.length_cons]
    omega

theorem commentBody_le_length (cs : List Char) : commentBody cs ≤ cs.length := by
  fun_induction commentBody cs with
  | case1 => exact Nat.le_refl _
  | case2 => simp
  | case3 c cs _ ih => exact Nat.succ_le_succ ih

theorem symbol?_length_le {c : Char} {cs spelling : List Char} {kind : Kind}
    (h : symbol? (c :: cs) = some (spelling, kind)) : spelling.length - 1 ≤ cs.length := by
  have hinit := List.find?_some h
  have hle := (List.isPrefixOf_iff_prefix.mp hinit).length_le
  simp only [List.length_cons] at hle
  omega

end Lexeme

open Lexeme in
/-- A lexeme takes no more characters than the text has. -/
theorem lexeme_le_length (c : Char) (cs : List Char) : (lexeme c cs).2 ≤ cs.length := by
  unfold lexeme
  split
  next => exact run_le_length _ cs
  next =>
    split
    next => exact run_le_length _ cs
    next =>
      split
      next => exact (number_append c cs (Or.inl rfl)).2
      next =>
        split
        next => exact quoted_le_length c cs
        next =>
          split
          next => exact run_le_length _ cs
          next =>
            split
            next hmark =>
              -- The body of a comment begins behind the star.
              cases cs with
              | nil => simp at hmark
              | cons d ds => exact Nat.succ_le_succ (commentBody_le_length ds)
            next =>
              split
              next hsymbol => exact symbol?_length_le hsymbol
              next => exact Nat.zero_le _

theorem start_of_head?_tokensFrom {start : Nat} {cs : List Char} {t : Token}
    (h : (tokensFrom start cs).head? = some t) : t.range.start = start := by
  cases cs with
  | nil => simp [tokensFrom] at h
  | cons c cs =>
    rw [tokensFrom, List.head?_cons, Option.some.injEq] at h
    rw [← h]
    rfl

theorem isChain_tokensFrom (start : Nat) (cs : List Char) :
    (tokensFrom start cs).IsChain (fun a b => a.range.stop = b.range.start) := by
  fun_induction tokensFrom start cs with
  | case1 => exact List.IsChain.nil
  | case2 start c cs ih =>
    rw [List.isChain_cons]
    exact ⟨fun t ht => (start_of_head?_tokensFrom ht).symm, ih⟩

theorem toList_text_tokensFrom (start : Nat) (cs : List Char) :
    (tokensFrom start cs).flatMap (fun t => t.text.toList) = cs := by
  fun_induction tokensFrom start cs with
  | case1 => rfl
  | case2 start c cs ih =>
    rw [List.flatMap_cons, ih]
    simp [Token.first]

theorem stop_of_getLast?_tokensFrom {start : Nat} {cs : List Char} {t : Token}
    (h : (tokensFrom start cs).getLast? = some t) : t.range.stop = start + byteLength cs := by
  fun_induction tokensFrom start cs with
  | case1 => simp at h
  | case2 start c cs ih =>
    have hlength : byteLength (c :: cs) = byteLength (c :: cs.take (lexeme c cs).2) +
        byteLength (cs.drop (lexeme c cs).2) := by
      rw [← byteLength_append, List.cons_append, List.take_append_drop]
    have hstop : (Token.first start c cs).range.stop =
        start + byteLength (c :: cs.take (lexeme c cs).2) := rfl
    rw [List.getLast?_cons] at h
    cases hlast : (tokensFrom (Token.first start c cs).range.stop
        (cs.drop (lexeme c cs).2)).getLast? with
    | none =>
      -- The first token is the last one, so nothing is left behind it.
      have hrest := toList_text_tokensFrom (Token.first start c cs).range.stop
        (cs.drop (lexeme c cs).2)
      rw [List.getLast?_eq_none_iff.mp hlast, List.flatMap_nil] at hrest
      rw [hlast, Option.getD_none, Option.some.injEq] at h
      rw [← h, hlength, ← hrest, byteLength_nil]
      exact hstop
    | some last =>
      rw [hlast, Option.getD_some, Option.some.injEq] at h
      rw [ih (h ▸ hlast), hstop, hlength, Nat.add_assoc]

/-- The token is the lexeme that begins at its place in the text, and all of it. -/
def Token.IsLexemeOf (text : String) (t : Token) : Prop :=
  ∃ front c cs, text.toList = front ++ c :: cs ∧ t.range.start = byteLength front ∧
    t.kind = (lexeme c cs).1 ∧ t.text.toList.length = (lexeme c cs).2 + 1

theorem isLexemeOf_of_mem_tokensFrom {text : String} {start : Nat} {front cs : List Char}
    {t : Token} (htext : text.toList = front ++ cs) (hstart : start = byteLength front)
    (h : t ∈ tokensFrom start cs) : t.IsLexemeOf text := by
  fun_induction tokensFrom start cs generalizing front with
  | case1 => simp at h
  | case2 start c cs ih =>
    rcases List.mem_cons.mp h with rfl | h
    · refine ⟨front, c, cs, htext, hstart, rfl, ?_⟩
      simp [Token.first, lexeme_le_length c cs]
    · have hrest : text.toList =
          (front ++ c :: cs.take (lexeme c cs).2) ++ cs.drop (lexeme c cs).2 := by
        rw [htext, List.append_assoc, List.cons_append, List.take_append_drop]
      refine ih hrest ?_ h
      rw [byteLength_append, ← hstart]
      rfl

section utf8

variable {text : String}

theorem byteLength_eq_utf8Len (cs : List Char) : byteLength cs = String.utf8Len cs := by
  induction cs with
  | nil => rfl
  | cons c cs ih => rw [byteLength_cons, String.utf8Len_cons, ih, Nat.add_comm]

theorem utf8ByteSize_eq_byteLength (text : String) :
    text.utf8ByteSize = byteLength text.toList := by
  rw [byteLength_eq_utf8Len, ← String.utf8ByteSize_ofList, String.ofList_toList]

theorem IsBoundary.isValid {offset : Nat} (h : IsBoundary text offset) :
    String.Pos.Raw.IsValid text ⟨offset⟩ := by
  obtain ⟨front, back, htext, rfl⟩ := h
  rw [String.Pos.Raw.isValid_iff_exists_append]
  refine ⟨String.ofList front, String.ofList back, ?_, ?_⟩
  · rw [← String.toList_inj, htext]
    simp
  · rw [String.rawEndPos_ofList, byteLength_eq_utf8Len]

theorem IsSlice.extract_eq {range : ByteRange} {word : String} (h : IsSlice text range word) :
    String.Pos.Raw.extract text ⟨range.start⟩ ⟨range.stop⟩ = word := by
  obtain ⟨front, back, htext, rfl⟩ := h
  have hslice := String.extract_of_valid front word.toList back
  rw [← htext, String.ofList_toList, String.ofList_toList] at hslice
  rw [byteLength_append, byteLength_eq_utf8Len, byteLength_eq_utf8Len]
  exact hslice

end utf8

/-- Lexing loses nothing: the tokens begin with the text, each one starts where the one before it
stops, they end with the text, and joined they are the text. No token is empty, both of its ends
stand between characters, its text is what stands in its range, and it is the whole lexeme that
begins there. -/
theorem tokenize_tiles (text : String) :
    (∀ t, (tokenize text).head? = some t → t.range.start = 0) ∧
      (tokenize text).IsChain (fun a b => a.range.stop = b.range.start) ∧
      (∀ t, (tokenize text).getLast? = some t → t.range.stop = text.utf8ByteSize) ∧
      (∀ t ∈ tokenize text, t.range.start < t.range.stop ∧
        String.Pos.Raw.IsValid text ⟨t.range.start⟩ ∧
        String.Pos.Raw.IsValid text ⟨t.range.stop⟩ ∧
        String.Pos.Raw.extract text ⟨t.range.start⟩ ⟨t.range.stop⟩ = t.text ∧
        t.IsLexemeOf text) ∧
      String.join ((tokenize text).map Token.text) = text := by
  refine ⟨fun t ht => start_of_head?_tokensFrom ht, isChain_tokensFrom 0 text.toList, ?_, ?_, ?_⟩
  · intro t ht
    rw [stop_of_getLast?_tokensFrom ht, utf8ByteSize_eq_byteLength, Nat.zero_add]
  · intro t ht
    have hslice := isSlice_of_mem_tokenize ht
    exact ⟨(ordered_tokensFrom 0 text.toList).nonempty t ht, hslice.fits.start.isValid,
      hslice.fits.stop.isValid, hslice.extract_eq,
      isLexemeOf_of_mem_tokensFrom (List.nil_append text.toList).symm byteLength_nil.symm ht⟩
  · rw [← String.toList_inj, String.toList_join, List.flatMap_map]
    exact toList_text_tokensFrom 0 text.toList

-- A string without its end, a number that gives back its dot, and a comment without its end.
example : (tokenize "'é\n1.e§/*").map (fun t => (t.text, t.range)) =
    [("'é", ⟨0, 3⟩), ("\n", ⟨3, 4⟩), ("1", ⟨4, 5⟩), (".", ⟨5, 6⟩), ("e", ⟨6, 7⟩), ("§", ⟨7, 9⟩),
      ("/*", ⟨9, 11⟩)] := by
  decide +kernel

end SolidityCompass
