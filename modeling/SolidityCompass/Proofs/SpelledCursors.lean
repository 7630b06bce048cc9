import SolidityCompass.Proofs.Depth
import SolidityCompass.Proofs.Spelling

/-!
# Cursors by their words

A cursor is known by the words ahead of it, which leave out where the tokens stand. The steps of
the readers are said here in terms of these words: what a step does before a given word, and which
word it must have stood before when it succeeds.
-/

namespace SolidityCompass

open Spelling

def Spelling.IsWord (names : List String) (w : Spelling) : Prop :=
  w.kind = .ident ∧ w.text ∈ names

theorem Spelling.isWord_iff {names : List String} {w : Spelling} :
    (w.kind = .ident && names.contains w.text) = true ↔ w.IsWord names := by
  simp [Spelling.IsWord]

namespace Cursor

def spelled (c : Cursor) : List Spelling :=
  c.rest.map Token.spelling

variable {c d : Cursor} {w v : Spelling} {words after : List Spelling}

theorem rest_of_spelled (h : c.spelled = w :: words) :
    ∃ t ts, c.rest = t :: ts ∧ t.kind = w.kind ∧ t.text = w.text ∧
      ts.map Token.spelling = words := by
  obtain ⟨t, ts, hr, ht, hts⟩ := List.map_eq_cons_iff.mp h
  exact ⟨t, ts, hr, congrArg Spelling.kind ht, congrArg Spelling.text ht, hts⟩

theorem spelled_skip (c : Cursor) (n : Nat) : (c.skip n).spelled = c.spelled.drop n := by
  simp [spelled, List.map_drop]

theorem spelled_advance (h : c.spelled = w :: words) : c.advance.spelled = words := by
  have hskip := c.spelled_skip 1
  rwa [h, List.drop_succ_cons, List.drop_zero] at hskip

theorem kind?_of_spelled (h : c.spelled = w :: words) : c.kind? = some w.kind := by
  obtain ⟨t, ts, hr, hk, -⟩ := rest_of_spelled h
  simp [kind?, hr, hk]

theorem kindAfter?_of_spelled (h : c.spelled = w :: v :: words) :
    c.kindAfter? 1 = some v.kind := by
  obtain ⟨t, ts, hr, -, -, hts⟩ := rest_of_spelled h
  obtain ⟨u, us, rfl, hu, -⟩ := List.map_eq_cons_iff.mp hts
  simp [kindAfter?, hr, ← hu, Token.spelling]

theorem sees_of_spelled {kind : Kind} (h : c.spelled = w :: words) (hk : w.kind = kind) :
    c.sees kind = true :=
  sees_of_kind? (hk ▸ kind?_of_spelled h)

theorem not_sees_of_spelled {kind : Kind} (h : c.spelled = w :: words) (hk : w.kind ≠ kind) :
    c.sees kind = false := by
  simp [sees, kind?_of_spelled h, hk]

theorem eat?_of_spelled {kind : Kind} (h : c.spelled = w :: words) (hk : w.kind = kind) :
    c.eat? kind = some c.advance := by
  rw [eat?, if_pos (sees_of_spelled h hk)]

theorem eat?_eq_none_of_spelled {kind : Kind} (h : c.spelled = w :: words) (hk : w.kind ≠ kind) :
    c.eat? kind = none := by
  rw [eat?, not_sees_of_spelled h hk]
  rfl

theorem name?_of_isName (h : c.spelled = w :: words) (hw : w.kind.isName = true) :
    ∃ name : Name, c.name? = some (name, c.advance) ∧ name.text = w.text := by
  obtain ⟨t, ts, hr, hk, htext, -⟩ := rest_of_spelled h
  exact ⟨⟨t.text, t.range⟩, by simp [name?, hr, hk, hw], htext⟩

theorem name?_of_spelled {text : String} (h : c.spelled = ident text :: words) :
    ∃ name : Name, c.name? = some (name, c.advance) ∧ name.text = text :=
  name?_of_isName h rfl

theorem name?_eq_none_of_spelled (h : c.spelled = w :: words) (hk : w.kind.isName = false) :
    c.name? = none := by
  obtain ⟨t, ts, hr, hkind, -⟩ := rest_of_spelled h
  simp [name?, hr, hkind, hk]

theorem not_seesWord_of_spelled {word : String} (h : c.spelled = w :: words)
    (hw : w.kind = .ident → w.text ≠ word) : c.seesWord word = false := by
  obtain ⟨t, ts, hr, hk, htext, -⟩ := rest_of_spelled h
  simp only [seesWord, hr, hk, htext]
  by_cases hident : w.kind = .ident
  · simp [hident, hw hident]
  · simp [hident]

theorem skipWord_of_spelled {word : String} (h : c.spelled = w :: words)
    (hw : w.kind = .ident → w.text ≠ word) : c.skipWord word = c := by
  rw [skipWord, not_seesWord_of_spelled h hw]
  rfl

theorem seesWord_of_spelled {name : String} (h : c.spelled = w :: words) :
    c.seesWord name = true ↔ w.IsWord [name] := by
  obtain ⟨t, ts, hr, hk, htext, -⟩ := rest_of_spelled h
  simp [seesWord, hr, hk, htext, Spelling.IsWord]

theorem skipNameBefore_of_spelled (kind : Kind) (h : c.spelled = v :: after)
    (hv : v.kind.isName = false) : c.skipNameBefore kind = c := by
  simp [skipNameBefore, seesAny, kind?_of_spelled h, hv]

theorem skipWords_of_spelled {names : List String} (h : c.spelled = v :: after)
    (hv : v.kind = .ident → v.text ∉ names) : c.skipWords names = c := by
  obtain ⟨t, ts, hr, hk, htext, -⟩ := rest_of_spelled h
  have hnone : ¬ (t.kind = .ident && names.contains t.text) = true := by
    rw [hk, htext]
    by_cases hident : v.kind = .ident
    · simp [hident, hv hident]
    · simp [hident]
  rw [skipWords, hr, List.takeWhile_cons, if_neg hnone]
  rfl

theorem spelled_of_kind? {kind : Kind} (h : c.kind? = some kind) :
    ∃ w, c.spelled = w :: c.advance.spelled ∧ w.kind = kind := by
  obtain ⟨t, ts, hr, ht⟩ := rest_of_kind? h
  refine ⟨t.spelling, ?_, ht⟩
  rw [spelled, spelled, rest_advance, hr, List.map_cons, List.tail_cons]

theorem exists_word_of_eat? {kind : Kind} (h : c.eat? kind = some d) :
    ∃ w, c.spelled = w :: d.spelled ∧ w.kind = kind := by
  unfold eat? at h
  split at h
  next hs =>
    cases h
    exact spelled_of_kind? (kind?_of_sees hs)
  next => cases h

end Cursor

end SolidityCompass
