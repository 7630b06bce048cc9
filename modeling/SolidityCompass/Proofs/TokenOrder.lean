import SolidityCompass.Outline.Read

/-!
# Tokens in order

The tokens of a text follow each other and none of them is empty, so a token is known by the byte
at which it starts. `Cursor.On` places a cursor among the tokens of a text: what was consumed and
what lies ahead make up all of them, and `passed` is the end of the last token consumed.
-/

namespace SolidityCompass

def significant (text : String) : List Token :=
  (tokenize text).filter (fun t => t.kind.isSignificant)

@[simp] theorem rest_start (text : String) :
    (Reading.start text).cursor.rest = significant text := rfl

/-- No token is empty, and each one starts behind the end of all tokens before it. -/
structure Ordered (tokens : List Token) : Prop where
  follow : tokens.Pairwise (fun a b => a.range.stop ≤ b.range.start)
  nonempty : ∀ t ∈ tokens, t.range.start < t.range.stop

theorem Token.first_nonempty (start : Nat) (c : Char) (cs : List Char) :
    (Token.first start c cs).range.start < (Token.first start c cs).range.stop := by
  have hc : 0 < c.utf8Size := Char.utf8Size_pos c
  simp only [Token.first, byteLength_cons]
  omega

theorem start_le_of_mem_tokensFrom {start : Nat} {cs : List Char} {t : Token}
    (h : t ∈ tokensFrom start cs) : start ≤ t.range.start := by
  fun_induction tokensFrom start cs with
  | case1 => simp at h
  | case2 start c cs ih =>
    rcases List.mem_cons.mp h with rfl | h
    · exact Nat.le_refl _
    · exact Nat.le_trans (Nat.le_of_lt (Token.first_nonempty start c cs)) (ih h)

theorem ordered_tokensFrom (start : Nat) (cs : List Char) : Ordered (tokensFrom start cs) := by
  fun_induction tokensFrom start cs with
  | case1 => exact ⟨List.Pairwise.nil, by simp⟩
  | case2 start c cs ih =>
    refine ⟨List.pairwise_cons.mpr ⟨fun t ht => start_le_of_mem_tokensFrom ht, ih.follow⟩, ?_⟩
    intro t ht
    rcases List.mem_cons.mp ht with rfl | ht
    · exact Token.first_nonempty start c cs
    · exact ih.nonempty t ht

theorem Ordered.filter {tokens : List Token} (h : Ordered tokens) (p : Token → Bool) :
    Ordered (tokens.filter p) :=
  ⟨h.follow.filter p, fun t ht => h.nonempty t (List.mem_filter.mp ht).1⟩

theorem ordered_significant (text : String) : Ordered (significant text) :=
  (ordered_tokensFrom 0 text.toList).filter _

namespace Ordered

variable {tokens before before' after after' : List Token} {t t' : Token}

theorem start_lt_of_split (h : Ordered tokens) (hs : tokens = before ++ t :: after)
    (ht : t' ∈ after) : t.range.start < t'.range.start := by
  subst hs
  have hfollow := (List.pairwise_cons.mp (List.pairwise_append.mp h.follow).2.1).1 t' ht
  exact Nat.lt_of_lt_of_le (h.nonempty t (by simp)) hfollow

/-- A token of a text is known by where it starts. -/
theorem split_unique (h : Ordered tokens) (hs : tokens = before ++ t :: after)
    (hs' : tokens = before' ++ t' :: after') (ht : t.range.start = t'.range.start) :
    before = before' ∧ t = t' ∧ after = after' := by
  have hsplit := hs.symm.trans hs'
  rcases List.append_eq_append_iff.mp hsplit with ⟨as, rfl, has⟩ | ⟨as, rfl, has⟩
  · cases as with
    | nil => simpa using has
    | cons a as =>
      obtain ⟨rfl, rfl⟩ := List.cons.inj has
      exact absurd ht (Nat.ne_of_lt (h.start_lt_of_split hs (by simp)))
  · cases as with
    | nil => simpa [eq_comm] using has
    | cons a as =>
      obtain ⟨rfl, rfl⟩ := List.cons.inj has
      exact absurd ht.symm (Nat.ne_of_lt (h.start_lt_of_split hs' (by simp)))

end Ordered

def lastStop (tokens : List Token) : Nat :=
  (tokens.getLast?.map fun t => t.range.stop).getD 0

namespace Cursor

def On (tokens : List Token) (c : Cursor) : Prop :=
  ∃ done, tokens = done ++ c.rest ∧ c.passed = lastStop done

variable {tokens : List Token} {c d : Cursor}

theorem On.advance (h : c.On tokens) : c.advance.On tokens := by
  obtain ⟨done, hdone, hpassed⟩ := h
  cases hr : c.rest with
  | nil => exact ⟨done, by simpa [hr] using hdone, by simpa [Cursor.advance, hr] using hpassed⟩
  | cons t ts =>
    refine ⟨done ++ [t], by simp [hdone, hr], ?_⟩
    simp [Cursor.advance, hr, lastStop]

theorem On.reaches (h : c.On tokens) (hd : c.Reaches d) : d.On tokens := by
  obtain ⟨m, rfl⟩ := hd
  induction m generalizing c with
  | zero => exact h
  | succ m ih => exact ih h.advance

theorem On.passed_lt (h : c.On tokens) (ho : Ordered tokens) {ahead after : List Token}
    {t : Token} (hr : c.rest = ahead ++ t :: after) : c.passed < t.range.stop := by
  obtain ⟨done, hdone, hpassed⟩ := h
  have hmem : t ∈ tokens := by simp [hdone, hr]
  have ht := ho.nonempty t hmem
  rw [hpassed, lastStop]
  cases hlast : done.getLast? with
  | none => simp; omega
  | some last =>
    have hin : last ∈ done := List.mem_of_getLast? hlast
    have hfollow := ho.follow
    rw [hdone] at hfollow
    have hle := (List.pairwise_append.mp hfollow).2.2 last hin t (by simp [hr])
    simpa using Nat.lt_of_le_of_lt hle ht

theorem on_start (text : String) : (Reading.start text).cursor.On (significant text) :=
  ⟨[], rfl, rfl⟩

end Cursor

end SolidityCompass
