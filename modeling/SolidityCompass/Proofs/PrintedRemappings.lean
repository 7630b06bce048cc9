import Mathlib.Data.List.TakeWhile
import SolidityCompass.Import.Remapping

/-!
# Remappings printed and read again

A text is cut at its first `=` and what stands in front of it at its first `:`, so that of the three
parts only the target may hold both marks, and the stem a `:`. `Tidy` collects what is known of the
parts of a remapping that was read. Its text is cut at the same places again if a context stands in
front of the stem. Without one the stem itself is cut at its first colon, and another remapping, or
none, is read from the text.
-/

namespace SolidityCompass

section blanks

variable {cs : List Char}

def IsTrimmed (cs : List Char) : Prop :=
  (∀ c ∈ cs.head?, isBlank c = false) ∧ ∀ c ∈ cs.getLast?, isBlank c = false

theorem isBlank_head?_dropBlanks (cs : List Char) :
    ∀ c ∈ (dropBlanks cs).head?, isBlank c = false := by
  intro c hc
  have h := List.head?_dropWhile_not isBlank cs
  rw [Option.mem_def, dropBlanks] at hc
  rwa [hc] at h

theorem dropBlanks_eq_self (h : ∀ c ∈ cs.head?, isBlank c = false) : dropBlanks cs = cs := by
  cases cs with
  | nil => rfl
  | cons c cs => simp [dropBlanks, h c rfl]

theorem isTrimmed_trimBlanks (cs : List Char) : IsTrimmed (trimBlanks cs) := by
  have hlast := isBlank_head?_dropBlanks (dropBlanks cs).reverse
  have hfront : trimBlanks cs <+: dropBlanks cs := by
    rw [← List.reverse_suffix, trimBlanks, List.reverse_reverse]
    exact List.dropWhile_suffix isBlank
  refine ⟨?_, by rwa [trimBlanks, List.getLast?_reverse]⟩
  intro c hc
  obtain ⟨rest, hrest⟩ := hfront
  apply isBlank_head?_dropBlanks cs
  rw [← hrest, Option.mem_def, List.head?_append, hc]
  rfl

theorem IsTrimmed.trimBlanks_eq (h : IsTrimmed cs) : trimBlanks cs = cs := by
  have hlast : ∀ c ∈ cs.reverse.head?, isBlank c = false := by
    rw [List.head?_reverse]
    exact h.2
  rw [trimBlanks, dropBlanks_eq_self h.1, dropBlanks_eq_self hlast, List.reverse_reverse]

theorem trimBlanks_sublist (cs : List Char) : (trimBlanks cs).Sublist cs := by
  have hdrop (ds : List Char) : (dropBlanks ds).Sublist ds :=
    (List.dropWhile_suffix isBlank).sublist
  have hback := (hdrop (dropBlanks cs).reverse).reverse
  rw [List.reverse_reverse] at hback
  exact hback.trans (hdrop cs)

/-- A text is trimmed if its two ends are. -/
theorem IsTrimmed.append {front back : List Char} (middle : List Char) (hfront : IsTrimmed front)
    (hback : IsTrimmed back) (hfrontNe : front ≠ []) (hbackNe : back ≠ []) :
    IsTrimmed (front ++ (middle ++ back)) := by
  constructor
  · rw [List.head?_append, Option.or_of_isSome (by simpa using hfrontNe)]
    exact hfront.1
  · rw [← List.append_assoc, List.getLast?_append, Option.or_of_isSome (by simpa using hbackNe)]
    exact hback.2

end blanks

namespace Remapping

/-- What is known of a remapping that was read: its parts are trimmed and not empty, and no part
holds a mark behind which the next one is looked for, but for a stem without a context. -/
structure Tidy (r : Remapping) : Prop where
  stem_ne : r.stem ≠ ""
  stem_trimmed : IsTrimmed r.stem.toList
  stem_equals : '=' ∉ r.stem.toList
  target_ne : r.target ≠ ""
  target_trimmed : IsTrimmed r.target.toList
  context_ne : ∀ context ∈ r.context, context ≠ ""
  context_trimmed : ∀ context ∈ r.context, IsTrimmed context.toList
  context_equals : ∀ context ∈ r.context, '=' ∉ context.toList
  context_colon : ∀ context ∈ r.context, ':' ∉ context.toList

def contextAndStem (left : List Char) : List Char × List Char :=
  match cutAt? ':' left with
  | some (context, stem) => (trimBlanks context, trimBlanks stem)
  | none => ([], trimBlanks left)

def ofParts (contextAndStem : List Char × List Char) (target : List Char) : Remapping :=
  ⟨if contextAndStem.1.isEmpty then none else some (String.ofList contextAndStem.1),
    String.ofList contextAndStem.2, String.ofList target⟩

variable {text : String} {r : Remapping} {left right : List Char}

theorem parse_of_cut (h : cutAt? '=' (trimBlanks text.toList) = some (left, right)) :
    parse text = if (contextAndStem left).2.isEmpty || (trimBlanks right).isEmpty then
      .error (.invalidRemapping text)
      else .ok (ofParts (contextAndStem left) (trimBlanks right)) := by
  rw [parse, h]
  rfl

/-- A text from which a remapping is read has an equals sign, with something other than blanks on
both sides. -/
theorem parts_of_parse (h : parse text = .ok r) :
    ∃ left right, trimBlanks text.toList = left ++ '=' :: right ∧ '=' ∉ left ∧
      (contextAndStem left).2 ≠ [] ∧ trimBlanks right ≠ [] ∧
      r = ofParts (contextAndStem left) (trimBlanks right) := by
  cases hcut : cutAt? '=' (trimBlanks text.toList) with
  | none =>
    simp only [parse, hcut] at h
    cases h
  | some parts =>
    obtain ⟨left, right⟩ := parts
    rw [parse_of_cut hcut] at h
    split at h
    next => cases h
    next hne =>
      cases h
      simp only [Bool.or_eq_true, List.isEmpty_iff, not_or] at hne
      obtain ⟨hstem, htarget⟩ := hne
      obtain ⟨htext, hleft⟩ := eq_of_cutAt? hcut
      exact ⟨left, right, htext, hleft, hstem, htarget, rfl⟩

/-- Both parts in front of the equals sign are trimmed pieces of what stands there, and the context
is cut off at the first colon. -/
theorem contextAndStem_spec (left : List Char) :
    IsTrimmed (contextAndStem left).1 ∧ IsTrimmed (contextAndStem left).2 ∧
      (contextAndStem left).1.Sublist left ∧ (contextAndStem left).2.Sublist left ∧
      ':' ∉ (contextAndStem left).1 := by
  unfold contextAndStem
  split
  next context stem hcut =>
    obtain ⟨rfl, hcolon⟩ := eq_of_cutAt? hcut
    refine ⟨isTrimmed_trimBlanks _, isTrimmed_trimBlanks _, ?_, ?_, ?_⟩
    · exact (trimBlanks_sublist _).trans (List.sublist_append_left _ _)
    · exact (trimBlanks_sublist _).trans
        ((List.sublist_cons_self _ _).trans (List.sublist_append_right _ _))
    · exact fun h => hcolon ((trimBlanks_sublist _).subset h)
  next =>
    exact ⟨⟨by simp, by simp⟩, isTrimmed_trimBlanks _, List.nil_sublist _, trimBlanks_sublist _,
      by simp⟩

theorem tidy_of_parse (h : parse text = .ok r) : r.Tidy := by
  obtain ⟨left, right, -, hequals, hstem, htarget, rfl⟩ := parts_of_parse h
  obtain ⟨hcontext, hstemTrimmed, hcontextSub, hstemSub, hcolon⟩ := contextAndStem_spec left
  have hsome : ∀ context ∈ (ofParts (contextAndStem left) (trimBlanks right)).context,
      context.toList = (contextAndStem left).1 ∧ (contextAndStem left).1 ≠ [] := by
    intro context hmem
    simp only [ofParts, Option.mem_def] at hmem
    split at hmem
    next => cases hmem
    next hne =>
      cases hmem
      exact ⟨String.toList_ofList, by simpa using hne⟩
  exact {
    stem_ne := by simpa [ofParts] using hstem
    stem_trimmed := by simpa [ofParts] using hstemTrimmed
    stem_equals := by simpa [ofParts] using fun hmem => hequals (hstemSub.subset hmem)
    target_ne := by simpa [ofParts] using htarget
    target_trimmed := by simpa [ofParts] using isTrimmed_trimBlanks right
    context_ne := fun context hmem => by
      obtain ⟨hlist, hne⟩ := hsome context hmem
      rintro rfl
      exact hne hlist.symm
    context_trimmed := fun context hmem => (hsome context hmem).1 ▸ hcontext
    context_equals := fun context hmem heq =>
      hequals (hcontextSub.subset ((hsome context hmem).1 ▸ heq))
    context_colon := fun context hmem hmark => hcolon ((hsome context hmem).1 ▸ hmark) }

def front (r : Remapping) : List Char :=
  match r.context with
  | none => r.stem.toList
  | some context => context.toList ++ ':' :: r.stem.toList

theorem toList_render (r : Remapping) : r.render.toList = r.front ++ '=' :: r.target.toList := by
  unfold render front
  cases r.context <;> simp

namespace Tidy

theorem front_trimmed (h : r.Tidy) : IsTrimmed r.front ∧ r.front ≠ [] ∧ '=' ∉ r.front := by
  have hstem : r.stem.toList ≠ [] := by simpa using h.stem_ne
  unfold front
  cases hcontext : r.context with
  | none => exact ⟨h.stem_trimmed, hstem, h.stem_equals⟩
  | some context =>
    have hne : context.toList ≠ [] := by simpa using h.context_ne context hcontext
    refine ⟨(h.context_trimmed context hcontext).append [':'] h.stem_trimmed hne hstem, ?_, ?_⟩
    · simp
    · simpa using ⟨h.context_equals context hcontext, h.stem_equals⟩

/-- The text of a remapping is cut behind what was printed in front of the equals sign. -/
theorem parse_render_eq (h : r.Tidy) : parse r.render =
    if (contextAndStem r.front).2 = [] then .error (.invalidRemapping r.render)
    else .ok (ofParts (contextAndStem r.front) r.target.toList) := by
  obtain ⟨hfront, hne, hequals⟩ := h.front_trimmed
  have htarget : r.target.toList ≠ [] := by simpa using h.target_ne
  have htrim : trimBlanks r.render.toList = r.front ++ '=' :: r.target.toList := by
    rw [toList_render]
    exact (hfront.append ['='] h.target_trimmed hne htarget).trimBlanks_eq
  have hcut : cutAt? '=' (trimBlanks r.render.toList) = some (r.front, r.target.toList) := by
    rw [htrim, cutAt?_append hequals]
  rw [parse_of_cut hcut, h.target_trimmed.trimBlanks_eq]
  simp [h.target_ne]

/-- A context is cut off where it was printed. -/
theorem contextAndStem_of_context (h : r.Tidy) {context : String}
    (hcontext : r.context = some context) :
    contextAndStem r.front = (context.toList, r.stem.toList) := by
  rw [front, hcontext, contextAndStem, cutAt?_append (h.context_colon context hcontext)]
  simp only [(h.context_trimmed context hcontext).trimBlanks_eq, h.stem_trimmed.trimBlanks_eq]

/-- A stem without colons is taken whole. -/
theorem contextAndStem_of_stem (h : r.Tidy) (hcontext : r.context = none)
    (hcolon : ':' ∉ r.stem.toList) : contextAndStem r.front = ([], r.stem.toList) := by
  rw [front, hcontext, contextAndStem, cutAt?_of_not_mem hcolon]
  simp only [h.stem_trimmed.trimBlanks_eq]

/-- A stem with a colon and no context in front of it loses what stands before the colon. -/
theorem length_contextAndStem_lt (hcontext : r.context = none) (hcolon : ':' ∈ r.stem.toList) :
    (contextAndStem r.front).2.length < r.stem.toList.length := by
  obtain ⟨context, stem, hstem, hmark⟩ := List.eq_append_cons_of_mem hcolon
  rw [front, hcontext, contextAndStem, hstem, cutAt?_append hmark]
  have hle := (trimBlanks_sublist stem).length_le
  simp only [List.length_append, List.length_cons]
  omega

theorem parse_render (h : r.Tidy) (hr : r.context ≠ none ∨ ':' ∉ r.stem.toList) :
    parse r.render = .ok r := by
  rw [h.parse_render_eq]
  cases hcontext : r.context with
  | none =>
    have hcolon := hr.resolve_left (not_not_intro hcontext)
    rw [h.contextAndStem_of_stem hcontext hcolon]
    simp [ofParts, h.stem_ne, ← hcontext]
  | some context =>
    rw [h.contextAndStem_of_context hcontext]
    have hne := h.context_ne context hcontext
    simp [ofParts, h.stem_ne, hne, ← hcontext]

theorem parse_render_ne (h : r.Tidy) (hcontext : r.context = none) (hcolon : ':' ∈ r.stem.toList) :
    parse r.render ≠ .ok r := by
  have hlt := length_contextAndStem_lt hcontext hcolon
  rw [h.parse_render_eq]
  split
  next => simp
  next =>
    intro heq
    have hstem := congrArg Remapping.stem (Except.ok.inj heq)
    rw [← hstem, ofParts, String.toList_ofList] at hlt
    exact lt_irrefl _ hlt

end Tidy

/-- A remapping that was read from some text is read again from its own text exactly if it has a
context or its stem has no colon. -/
theorem parse_render_iff (text : String) (r : Remapping) (h : parse text = .ok r) :
    parse r.render = .ok r ↔ r.context ≠ none ∨ ':' ∉ r.stem.toList := by
  constructor
  · intro hread
    by_contra hneither
    obtain ⟨hcontext, hcolon⟩ := not_or.mp hneither
    exact (tidy_of_parse h).parse_render_ne (not_not.mp hcontext) (not_not.mp hcolon) hread
  · exact (tidy_of_parse h).parse_render

/-- Blanks around all parts, and further marks in stem and target. -/
theorem parse_render_of_crowded :
    let r : Remapping := ⟨some "src/old", "@a:b/", "lib/a=b:c"⟩
    parse " src/old :\t@a:b/ = lib/a=b:c\n" = .ok r ∧ r.render = "src/old:@a:b/=lib/a=b:c" ∧
      parse "src/old:@a:b/=lib/a=b:c" = .ok r := by
  intro r
  have hread : parse " src/old :\t@a:b/ = lib/a=b:c\n" = .ok r := rfl
  have hrender : r.render = "src/old:@a:b/=lib/a=b:c" := by decide
  have hagain := (parse_render_iff _ r hread).mpr (Or.inl (by decide))
  exact ⟨hread, hrender, hrender ▸ hagain⟩

/-- An empty context is dropped, and the text of what is left has its first colon in the stem. -/
theorem parse_render_of_emptyContext :
    let r : Remapping := ⟨none, "a:b", "c"⟩
    parse ":a:b=c" = .ok r ∧ r.render = "a:b=c" ∧
      parse r.render = .ok ⟨some "a", "b", "c"⟩ ∧ parse r.render ≠ .ok r := by
  intro r
  have hrender : r.render = "a:b=c" := by decide
  have hagain : parse r.render = .ok ⟨some "a", "b", "c"⟩ := hrender ▸ rfl
  exact ⟨rfl, hrender, hagain, by simp [hagain, r]⟩

end Remapping

end SolidityCompass
